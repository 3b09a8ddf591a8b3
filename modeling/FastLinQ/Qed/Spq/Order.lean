import FastLinQ.Foundations.Window
import FastLinQ.Qed.Chain.Account
import FastLinQ.Qed.Chain.Fifo
import FastLinQ.Qed.Spq.Ownership

/-!
# Completions out of order

The firmware completes ramrods in any order, the ring takes its elements back in order. The
elements are numbered as they are produced, the echo of an element is its number modulo `2^16`;
`Spq.InOrder` says how the consumer's index, the bitmap and its cursor follow from the numbers that
were released, that is completed or given up: the bitmap is a `Window.Marks` over them. It also
says that the ring still holds what was posted for every element that was not released.

`InOrder` holds between two turns of the loop of `qed_spq_comp_bmap_update`; when the loop ends
the first element that was not returned is one that was not released.
-/

namespace FastLinQ.Qed

open Places Window Paged Function List Nat Spq SpqPlace

/-! ## The ring of the queue -/

/-- The chain that `qed_spq_alloc` allocates. -/
structure ChainInfo.IsSpq (i : ChainInfo) (base : ℕ → ℕ) : Prop extends i.Ring base 8 where
  single : i.mode = .single
  u16 : i.cntType = .u16
  capacity : i.capacity = SPQ_RING_SIZE
  elemSize : i.elemSize = sizeofSlowPathElement

theorem isSpq_of_alloc {env : DmaEnv} {c : Chain}
    (h : qedChainAlloc env spqChainParams = .ok c) : c.IsSpq env.addr := by
  have hd : env.Disjoint spqChainParams.pageSize spqChainParams.pageCnt := by
    intro j hj k hk hjk
    have hcnt : spqChainParams.pageCnt = 1 := rfl
    omega
  obtain ⟨hs, -, -⟩ := linked_of_alloc (by decide) hd h
  have hU : 0 < c.usablePerPage := by
    rw [hs]
    decide
  refine ⟨ring_of_alloc h hd (by decide) (by decide) hU, ?_, ?_, ?_, ?_⟩ <;> rw [hs] <;> rfl

section Geometry

variable {i : ChainInfo} {base : ℕ → ℕ} (h : i.IsSpq base)

include h

theorem ChainInfo.IsSpq.elemAddr (k : ℕ) :
    i.elemAddr base k = base 0 + k % SPQ_RING_SIZE * sizeofSlowPathElement := by
  have hU : i.usablePerPage = SPQ_RING_SIZE := usable_eq h.toPow2 (by simp [h.single])
  rw [ChainInfo.elemAddr, h.one h.single, mod_one, hU, h.elemSize]

theorem ChainInfo.IsSpq.elemAddr_ne {j k lo : ℕ} (hj : lo ≤ j) (hk : lo ≤ k)
    (hj' : j < lo + SPQ_RING_SIZE) (hk' : k < lo + SPQ_RING_SIZE) (hjk : j ≠ k) :
    i.elemAddr base j ≠ i.elemAddr base k := by
  rw [h.elemAddr, h.elemAddr]
  intro hc
  refine hjk (eq_of_mod_eq hj hk hj' hk' ?_)
  exact eq_of_mul_eq_mul_right (by decide : 0 < sizeofSlowPathElement)
    (Nat.add_left_cancel hc)

theorem ChainInfo.IsSpq.wrap (x : ℕ) : i.wrap x = x % 2 ^ 16 := by
  rw [ChainShape.wrap, h.u16]
  rfl

end Geometry

/-! ## The invariant -/

/-- The element was completed, or its poster gave up. -/
def Spq.Released (q : Spq) (e : ℕ) : Prop := e ∈ q.hist.completed ++ q.hist.timedOut

/-- The ring, the bitmap and its cursor agree with the elements that were released. -/
structure Spq.InOrder (base : ℕ → ℕ) (q : Spq) : Prop where
  chain : q.chain.IsSpq base
  prod : SideAt q.chain base q.chain.prod q.hist.produced
  prodIdx : q.chain.prod.idx = q.hist.produced % 2 ^ 16
  consIdx : q.chain.cons.idx = q.hist.returned % 2 ^ 16
  bmapIdx : q.compBitmapIdx = q.hist.returned % 2 ^ 8
  le : q.hist.returned ≤ q.hist.produced
  room : q.hist.produced < q.hist.returned + SPQ_RING_SIZE
  seq_inj : ∀ x ∈ q.completionPending, ∀ y ∈ q.completionPending,
    q.hist.seqOf x = q.hist.seqOf y → x = y
  echo : ∀ x ∈ q.completionPending, (q.ents x).elem.hdr.echo = q.hist.seqOf x % 2 ^ 16
  elem : ∀ x ∈ q.completionPending,
    q.ring (q.chain.elemAddr base (q.hist.seqOf x)) = (q.ents x).elem
  seq_lt : ∀ x ∈ q.completionPending, q.hist.seqOf x < q.hist.produced
  released_iff : ∀ e, q.Released e ↔
    e < q.hist.produced ∧ ∀ x ∈ q.completionPending, q.hist.seqOf x ≠ e
  nodup : (q.hist.completed ++ q.hist.timedOut).Nodup
  marks : Marks SPQ_RING_SIZE q.pCompBitmap q.hist.returned q.Released

/-- Nothing the ring's order depends on differs. -/
structure Spq.SameRing (q q' : Spq) : Prop where
  chain : q'.chain = q.chain
  pCompBitmap : q'.pCompBitmap = q.pCompBitmap
  compBitmapIdx : q'.compBitmapIdx = q.compBitmapIdx
  ring : q'.ring = q.ring
  completionPending : q'.completionPending = q.completionPending
  produced : q'.hist.produced = q.hist.produced
  returned : q'.hist.returned = q.hist.returned
  seqOf : q'.hist.seqOf = q.hist.seqOf
  completed : q'.hist.completed = q.hist.completed
  timedOut : q'.hist.timedOut = q.hist.timedOut
  elem : ∀ x ∈ q.completionPending, (q'.ents x).elem = (q.ents x).elem

theorem Spq.SameRing.refl (q : Spq) : q.SameRing q :=
  ⟨rfl, rfl, rfl, rfl, rfl, rfl, rfl, rfl, rfl, rfl, fun _ _ => rfl⟩

/-- The other lists may differ. -/
theorem Spq.sameRing_lists (q : Spq) (unlimited pending free : List ℕ) (drop : Bool) (next : ℕ)
    (moved freed : List ℕ) :
    q.SameRing { q with
      unlimitedPending := unlimited, pending := pending, freePool := free
      dropNextCompletion := drop, nextEnt := next
      hist := { q.hist with moved := moved, freed := freed } } :=
  ⟨rfl, rfl, rfl, rfl, rfl, rfl, rfl, rfl, rfl, rfl, fun _ _ => rfl⟩

theorem Spq.SameRing.trans {q q' q'' : Spq} (h : q.SameRing q') (h' : q'.SameRing q'') :
    q.SameRing q'' :=
  ⟨h'.chain.trans h.chain, h'.pCompBitmap.trans h.pCompBitmap,
    h'.compBitmapIdx.trans h.compBitmapIdx, h'.ring.trans h.ring,
    h'.completionPending.trans h.completionPending, h'.produced.trans h.produced,
    h'.returned.trans h.returned, h'.seqOf.trans h.seqOf, h'.completed.trans h.completed,
    h'.timedOut.trans h.timedOut,
    fun x hx => (h'.elem x (h.completionPending ▸ hx)).trans (h.elem x hx)⟩

theorem Spq.SameRing.released {q q' : Spq} (h : q.SameRing q') : q'.Released = q.Released := by
  funext e
  rw [Released, Released, h.completed, h.timedOut]

variable {base : ℕ → ℕ}

theorem Spq.InOrder.sameRing {q q' : Spq} (h : q.InOrder base) (hq : q.SameRing q') :
    q'.InOrder base := by
  obtain ⟨_, _, sent, _, chain, bmap, idx, _, ents, _, ring,
    ⟨produced, returned, seqOf, completed, timedOut, _, _⟩⟩ := q'
  obtain ⟨h₁, h₂, h₃, h₄, h₅, h₆, h₇, h₈, h₉, h₁₀, helem⟩ := hq
  subst h₁ h₂ h₃ h₄ h₅ h₆ h₇ h₈ h₉ h₁₀
  exact { h with
    echo := fun x hx => (congrArg (·.hdr.echo) (helem x hx)).trans (h.echo x hx)
    elem := fun x hx => (h.elem x hx).trans (helem x hx).symm }

/-! ## The loop over the bitmap -/

section Bitmap

variable {base : ℕ → ℕ} {q : Spq} (h : q.InOrder base)

include h

/-- The loop stops at the first element that was not released. -/
theorem Spq.InOrder.front_iff :
    q.pCompBitmap (q.compBitmapIdx % SPQ_RING_SIZE) = true ↔ q.Released q.hist.returned := by
  rw [h.bmapIdx, ← h.marks.front_iff (by decide)]
  exact Eq.congr_left (congrArg _ (mod_mod _ _))

theorem Spq.InOrder.next (hr : q.Released q.hist.returned) : (spqBmapNext q).InOrder base := by
  have hlt := ((h.released_iff _).1 hr).1
  have hidx : q.compBitmapIdx % SPQ_RING_SIZE = q.hist.returned % SPQ_RING_SIZE := by
    rw [h.bmapIdx]
    exact mod_mod _ _
  have hcons : (qedChainReturnProduced q.chain).cons.idx = (q.hist.returned + 1) % 2 ^ 16 := by
    change (testAndSkip q.chain
      { q.chain.cons with idx := q.chain.wrap (q.chain.cons.idx + 1) }).idx = _
    rw [testAndSkip_of_ne (h.chain.unusable_zero (by simp [h.chain.single]))
      (q.chain.wrap_wrap _)]
    rw [h.chain.wrap, h.consIdx, mod_add_mod]
  refine { h with consIdx := hcons, bmapIdx := ?_, le := hlt, room := ?_, marks := ?_ }
  · simp [spqBmapNext, h.bmapIdx, mod_add_mod]
  · have := h.room
    simp only [spqBmapNext]
    omega
  · simp only [spqBmapNext, hidx]
    exact h.marks.next (by decide) hr

/-- **The loop ends in order**, at an element that was not released. -/
theorem Spq.InOrder.bmapLoop {n : ℕ} (hn : q.hist.produced ≤ q.hist.returned + n) :
    (spqBmapLoop n q).InOrder base ∧
      ¬ (spqBmapLoop n q).Released (spqBmapLoop n q).hist.returned := by
  induction n generalizing q with
  | zero =>
    refine ⟨h, fun hr => ?_⟩
    have := ((h.released_iff _).1 hr).1
    simp only [spqBmapLoop] at this
    omega
  | succ n ih =>
    rw [spqBmapLoop]
    split
    · rename_i hbit
      refine ih (h.next (h.front_iff.1 hbit)) ?_
      simp only [spqBmapNext]
      omega
    · rename_i hbit
      exact ⟨h, mt h.front_iff.2 hbit⟩

/-- An element that was not released is among the last ones. -/
theorem Spq.InOrder.returned_le {x : ℕ} (hx : x ∈ q.completionPending) :
    q.hist.returned ≤ q.hist.seqOf x :=
  Nat.le_of_not_lt fun hlt => ((h.released_iff _).1 (h.marks.below _ hlt)).2 x hx rfl

/-- Releasing an element: its entry leaves `completion_pending` and its bit is set. -/
theorem Spq.InOrder.release (hnodup : q.completionPending.Nodup) {x : ℕ}
    (hx : x ∈ q.completionPending) (completed timedOut : List ℕ)
    (hperm : (completed ++ timedOut).Perm
      (q.hist.seqOf x :: (q.hist.completed ++ q.hist.timedOut))) :
    InOrder base { q with
      completionPending := q.completionPending.erase x
      pCompBitmap := update q.pCompBitmap
        ((q.ents x).elem.hdr.echo % SPQ_RING_SIZE) true
      hist := { q.hist with completed := completed, timedOut := timedOut } } := by
  have hmem : ∀ z, z ∈ q.completionPending.erase x ↔ z ≠ x ∧ z ∈ q.completionPending :=
    fun z => hnodup.mem_erase_iff
  have hnot : ¬ q.Released (q.hist.seqOf x) := fun hr =>
    ((h.released_iff _).1 hr).2 x hx rfl
  have hrel : ∀ e, e ∈ completed ++ timedOut ↔ e = q.hist.seqOf x ∨ q.Released e :=
    fun e => by rw [hperm.mem_iff, mem_cons, Released]
  refine { h with
    seq_inj := fun y hy z hz => h.seq_inj y (mem_of_mem_erase hy) z (mem_of_mem_erase hz)
    echo := fun y hy => h.echo y (mem_of_mem_erase hy)
    elem := fun y hy => h.elem y (mem_of_mem_erase hy)
    seq_lt := fun y hy => h.seq_lt y (mem_of_mem_erase hy)
    released_iff := fun e => ?_
    nodup := hperm.nodup_iff.2 (nodup_cons.2 ⟨hnot, h.nodup⟩)
    marks := ?_ }
  · change e ∈ completed ++ timedOut ↔ _
    rw [hrel, h.released_iff]
    constructor
    · rintro (rfl | ⟨hlt, hne⟩)
      · refine ⟨h.seq_lt x hx, fun y hy hc => ?_⟩
        obtain ⟨hyx, hy⟩ := (hmem y).1 hy
        exact hyx (h.seq_inj y hy x hx hc)
      · exact ⟨hlt, fun y hy => hne y (mem_of_mem_erase hy)⟩
    · rintro ⟨hlt, hne⟩
      by_cases he : e = q.hist.seqOf x
      · exact .inl he
      · refine .inr ⟨hlt, fun y hy hc => ?_⟩
        by_cases hyx : y = x
        · exact he (hc.symm.trans (congrArg _ hyx))
        · exact hne y ((hmem y).2 ⟨hyx, hy⟩) hc
  · have hbit : (q.ents x).elem.hdr.echo % SPQ_RING_SIZE = q.hist.seqOf x % SPQ_RING_SIZE := by
      rw [h.echo x hx]
      exact mod_mod_of_dvd _ (by decide)
    simp only [hbit]
    have hroom := h.room
    have hlt := h.seq_lt x hx
    exact h.marks.mark (h.returned_le hx) (by omega) hrel

end Bitmap

/-! ## Handing an element to the firmware -/

section Send

variable {base : ℕ → ℕ} {q : Spq} (h : q.InOrder base)

include h

/-- The room that `qed_spq_post_list` sees. -/
theorem Spq.InOrder.elemLeft :
    qedChainGetElemLeft q.chain = SPQ_RING_SIZE - (q.hist.produced - q.hist.returned) := by
  have hroom := h.room
  have hleft := elemLeft_of_ne (c := q.chain)
    (by simp [h.chain.single]) (by rw [h.chain.wrap, h.prodIdx]) (by rw [h.chain.wrap, h.consIdx])
    h.le (by rw [h.chain.capacity]; omega)
  have hget : Qed.elemLeft q.chain = qedChainGetElemLeft q.chain := by
    simp [Qed.elemLeft, h.chain.u16]
  rw [← hget, hleft, h.chain.capacity, h.chain.u16]
  refine mod_eq_of_lt ?_
  have : SPQ_RING_SIZE < 2 ^ ChainCntType.u16.bits := by decide
  omega

/-- The next element of the ring is none that was not released. -/
theorem Spq.InOrder.produce_ne {x : ℕ} (hx : x ∈ q.completionPending) :
    q.chain.elemAddr base (q.hist.seqOf x) ≠ q.chain.elemAddr base q.hist.produced := by
  have hlt := h.seq_lt x hx
  have hroom := h.room
  have hle := h.returned_le hx
  exact h.chain.elemAddr_ne hle h.le (by omega) hroom (by omega)

theorem Spq.InOrder.send {x : ℕ} {l : List ℕ} (hx : x ∉ q.completionPending)
    (hk : 1 < qedChainGetElemLeft q.chain) : (q.send x l).InOrder base := by
  obtain ⟨haddr, hside⟩ := nextElem_spec h.chain.toRing h.prod
  have hne : ∀ y ∈ q.completionPending, y ≠ x := fun y hy hc => hx (hc ▸ hy)
  have hidx : (qedChainNextElem q.chain q.chain.prod).2.idx =
      (q.hist.produced + 1) % 2 ^ 16 := by
    rw [nextElem_idx_of_ne (by simp [h.chain.single]), h.chain.wrap, h.prodIdx, mod_add_mod]
  have hseq : ∀ y ∈ q.completionPending, (q.send x l).hist.seqOf y = q.hist.seqOf y :=
    fun y hy => update_of_ne (hne y hy) ..
  have hseqx : (q.send x l).hist.seqOf x = q.hist.produced := update_self ..
  have hents : ∀ y ∈ q.completionPending, (q.send x l).ents y = q.ents y :=
    fun y hy => update_of_ne (hne y hy) ..
  have hentx : (q.send x l).ents x =
      { q.ents x with elem.hdr.echo := qedChainGetProdIdx q.chain } := update_self ..
  have hring : (q.send x l).ring = update q.ring (q.chain.elemAddr base q.hist.produced)
      ((q.send x l).ents x).elem := by
    rw [hentx, ← haddr]
    rfl
  refine { h with
    prod := hside, prodIdx := hidx, le := le_succ_of_le h.le, room := ?_, seq_inj := ?_
    echo := forall_mem_append.2 ⟨fun y hy => ?_, forall_mem_singleton.2 ?_⟩
    elem := forall_mem_append.2 ⟨fun y hy => ?_, forall_mem_singleton.2 ?_⟩
    seq_lt := forall_mem_append.2 ⟨fun y hy => ?_, forall_mem_singleton.2 ?_⟩
    released_iff := fun e => ?_ }
  · rw [h.elemLeft] at hk
    change q.hist.produced + 1 < q.hist.returned + SPQ_RING_SIZE
    omega
  · refine forall_mem_append.2 ⟨fun y hy => forall_mem_append.2 ⟨fun z hz => ?_, ?_⟩, ?_⟩
    · rw [hseq y hy, hseq z hz]
      exact h.seq_inj y hy z hz
    · rw [forall_mem_singleton, hseq y hy, hseqx]
      exact fun hc => absurd hc (h.seq_lt y hy).ne
    · refine forall_mem_singleton.2 (forall_mem_append.2 ⟨fun z hz => ?_, by simp⟩)
      rw [hseq z hz, hseqx]
      exact fun hc => absurd hc (h.seq_lt z hz).ne'
  · rw [hents y hy, hseq y hy]
    exact h.echo y hy
  · rw [hentx, hseqx]
    exact h.prodIdx
  · rw [hents y hy, hseq y hy, hring]
    exact (update_of_ne (h.produce_ne hy) ..).trans (h.elem y hy)
  · rw [hseqx, hring]
    exact update_self ..
  · rw [hseq y hy]
    exact lt_succ_of_lt (h.seq_lt y hy)
  · rw [hseqx]
    exact lt_succ_self _
  · have hold : (∀ y ∈ q.completionPending, (q.send x l).hist.seqOf y ≠ e) ↔
        ∀ y ∈ q.completionPending, q.hist.seqOf y ≠ e :=
      forall₂_congr fun y hy => by rw [hseq y hy]
    change q.Released e ↔ e < q.hist.produced + 1 ∧ ∀ y ∈ q.completionPending ++ [x], _
    rw [h.released_iff, forall_mem_append, forall_mem_singleton, hseqx, hold]
    exact ⟨fun ⟨hlt, hne⟩ => ⟨lt_succ_of_lt hlt, hne, hlt.ne'⟩,
      fun ⟨hlt, hne, hp⟩ => ⟨by omega, hne⟩⟩

end Send

/-! ## Between two sections -/

/-- In order, and the first element that was not returned was not released. -/
structure Spq.Steady (base : ℕ → ℕ) (q : Spq) : Prop extends q.InOrder base where
  first : ¬ q.Released q.hist.returned

theorem Spq.Steady.sameRing {q q' : Spq} (h : q.Steady base) (hq : q.SameRing q') :
    q'.Steady base :=
  ⟨h.toInOrder.sameRing hq, by rw [hq.released, hq.returned]; exact h.first⟩

variable {q : Spq} {x : ℕ} {l : List ℕ}

theorem Spq.Steady.send (h : q.Steady base) (hx : x ∉ q.completionPending)
    (hk : 1 < qedChainGetElemLeft q.chain) :
    (q.send x l).Steady base :=
  ⟨h.toInOrder.send hx hk, h.first⟩

theorem Spq.Steady.complete (h : q.Steady base) (hnodup : q.completionPending.Nodup)
    (hx : x ∈ q.completionPending) :
    (qedSpqCompBmapUpdate (q.complete x) (q.ents x).elem.hdr.echo).Steady base := by
  have hrel := h.toInOrder.release hnodup hx (q.hist.completed ++ [q.hist.seqOf x])
    q.hist.timedOut
    (by rw [append_assoc]; exact perm_middle)
  obtain ⟨h₁, h₂⟩ := hrel.bmapLoop h.room.le
  exact ⟨h₁, h₂⟩

theorem Spq.Steady.abandon (h : q.Steady base) (hnodup : q.completionPending.Nodup)
    (hx : x ∈ q.completionPending) :
    (qedSpqPostFail2 q x).Steady base := by
  have hrel := h.toInOrder.release hnodup hx q.hist.completed
    (q.hist.timedOut ++ [q.hist.seqOf x])
    (by rw [← append_assoc]; exact perm_append_singleton ..)
  have hrel' : InOrder base { q.abandon x with
      pCompBitmap := update q.pCompBitmap
        ((q.ents x).elem.hdr.echo % SPQ_RING_SIZE) true } := by
    refine hrel.sameRing ⟨rfl, rfl, rfl, rfl, rfl, rfl, rfl, rfl, rfl, ?_, fun _ _ => rfl⟩
    simp [Spq.abandon, if_pos hx]
  obtain ⟨h₁, h₂⟩ := hrel'.bmapLoop h.room.le
  have hsteady : (qedSpqCompBmapUpdate (q.abandon x) (q.ents x).elem.hdr.echo).Steady base :=
    ⟨h₁, h₂⟩
  exact hsteady.sameRing (sameRing_lists ..)

/-! ## What leaves the ring alone -/

theorem setEnt_sameRing (hx : x ∉ q.completionPending) (e : SpqEntry) : q.SameRing (q.setEnt x e) :=
  ⟨rfl, rfl, rfl, rfl, rfl, rfl, rfl, rfl, rfl, rfl, fun y hy => by
    rw [setEnt_of_ne]
    rintro rfl
    exact hx hy⟩

theorem addPending_sameRing (q : Spq) (x : ℕ) (pr : SpqPriority) :
    q.SameRing (spqAddPending q x pr) := by
  obtain ⟨l, -, heq⟩ := spqAddPending_perm q x pr
  rw [heq]
  exact q.sameRing_lists ..

theorem copyEntry_sameRing {x y : ℕ} (hx : x ∉ q.completionPending) (hy : y ∉ q.completionPending) :
    q.SameRing (spqCopyEntry q x y) := by
  have hne : ∀ z ∈ q.completionPending, z ≠ x ∧ z ≠ y :=
    fun z hz => ⟨fun hc => hx (hc ▸ hz), fun hc => hy (hc ▸ hz)⟩
  unfold spqCopyEntry
  dsimp only
  split
  · refine ⟨rfl, rfl, rfl, rfl, rfl, rfl, rfl, rfl, rfl, rfl, fun z hz => ?_⟩
    obtain ⟨hzx, hzy⟩ := hne z hz
    simp [setEnt_of_ne _ _ _ hzx, setEnt_of_ne _ _ _ hzy]
  · refine ⟨rfl, rfl, rfl, rfl, rfl, rfl, rfl, rfl, rfl, rfl, fun z hz => ?_⟩
    obtain ⟨hzx, hzy⟩ := hne z hz
    simp [kfree, setEnt_of_ne _ _ _ hzx, setEnt_of_ne _ _ _ hzy]

variable {f : ℕ → Option SpqPlace} {s : SpqSys}

theorem Own.addEntry_sameRing (h : Own [x] s f) (pr : SpqPriority) :
    s.spq.SameRing (qedSpqAddEntry s.spq x pr) := by
  have hx : x ∈ s.list [x] .hand := mem_singleton_self x
  have hxs := h.filed.not_mem (b := sent) hx (by decide)
  by_cases hq : (s.spq.ents x).queue = .unlimitedPending
  · by_cases hl : s.spq.freePool = []
    · rw [addEntry_unlimited hq hl]
      exact s.spq.sameRing_lists ..
    · obtain ⟨y, l, hl⟩ := exists_cons_of_ne_nil hl
      have hy : y ∈ s.spq.freePool := by rw [hl]; exact mem_cons_self
      have hys := h.filed.not_mem (a := free) (b := sent) hy (by decide)
      have hpop : s.spq.SameRing { s.spq with freePool := l } := s.spq.sameRing_lists ..
      rw [addEntry_copy hq hl]
      exact (hpop.trans (copyEntry_sameRing (by exact hxs) (by exact hys))).trans
        (addPending_sameRing ..)
  · rw [addEntry_pending hq]
    exact addPending_sameRing ..

theorem Own.pendLoop_sameRing (h : Own [] s f) (hl : s.spq.unlimitedPending = l) :
    s.spq.SameRing (spqPendLoop l s.spq) := by
  induction l generalizing s f with
  | nil => exact .refl _
  | cons x l ih =>
    by_cases hp : s.spq.freePool = []
    · rw [pendLoop_stop hp]
      exact .refl _
    · obtain ⟨f₁, h₁⟩ := h.takeUnlimited hl
      obtain ⟨f₂, h₂⟩ := h₁.addEntry (s.spq.ents x).priority
      have hpop : s.spq.SameRing { s.spq with unlimitedPending := l } := s.spq.sameRing_lists ..
      rw [pendLoop_next hp]
      exact (hpop.trans (h₁.addEntry_sameRing _)).trans (ih h₂
        (addEntry_unlimitedPending (q := { s.spq with unlimitedPending := l }) hp ..))

/-- What a section that releases no element does to the ring. -/
structure Spq.Follows (base : ℕ → ℕ) (q q' : Spq) : Prop where
  steady : q'.Steady base
  completed : q'.hist.completed = q.hist.completed
  timedOut : q'.hist.timedOut = q.hist.timedOut

theorem Spq.Steady.follows {q' : Spq} (h : q.Steady base) (hq : q.SameRing q') :
    q.Follows base q' :=
  ⟨h.sameRing hq, hq.completed, hq.timedOut⟩

theorem Spq.Follows.of_sameRing {q' q'' : Spq} (h : q'.Follows base q'') (hq : q.SameRing q') :
    q.Follows base q'' :=
  ⟨h.steady, h.completed.trans hq.completed, h.timedOut.trans hq.timedOut⟩

theorem Own.postLoop_follows (h : Own [] s f) (hc : s.spq.chain.Mapped) (hs : s.spq.Steady base)
    (hl : s.spq.pending = l) (keep : ℕ) (hkeep : 1 ≤ keep) :
    s.spq.Follows base (spqPostLoop keep l s.spq).2 := by
  induction l generalizing s f with
  | nil => exact ⟨hs, rfl, rfl⟩
  | cons x l ih =>
    by_cases hk : keep < qedChainGetElemLeft s.spq.chain
    · have hx : x ∈ s.spq.pending := by rw [hl]; exact mem_cons_self
      have hxs := h.filed.not_mem (a := SpqPlace.pending) (b := SpqPlace.sent) hx (by decide)
      obtain ⟨f', h'⟩ := h.send hl
      rw [postLoop_next hc hk]
      obtain ⟨h₁, h₂, h₃⟩ := ih h' hc.produce.2 (hs.send hxs (by omega)) rfl
      exact ⟨h₁, h₂, h₃⟩
    · rw [postLoop_stop hk]
      exact ⟨hs, rfl, rfl⟩

theorem Own.pendPost_follows (h : Own [] s f) (hc : s.spq.chain.Mapped) (hs : s.spq.Steady base) :
    s.spq.Follows base (qedSpqPendPost s.spq).2 := by
  obtain ⟨f', h'⟩ := h.pendLoop rfl
  have hsame := h.pendLoop_sameRing rfl
  have hpost := h'.postLoop_follows (by rw [pendLoop_chain]; exact hc) (hs.sameRing hsame) rfl
    SPQ_HIGH_PRI_RESERVE_DEFAULT (by decide)
  exact hpost.of_sameRing hsame

end FastLinQ.Qed
