import FastLinQ.Qed.Chain.Index

/-!
# Producing and consuming in any order

A run interleaves `qed_chain_produce` and `qed_chain_consume` after `qed_chain_reset`, and records
the addresses handed out on the two sides. Both records are the walk around the ring of
`ChainInfo.elemAddr`, so the `k`-th consumer is given the element of the `k`-th producer, for any
number of wraps of the index.

There is one exception. On a chain that starts full, the reset moves the producer's index over the
whole chain, but not its pointer. With a page table or a single page that does no harm: the index
stands at the end of a page and the next page is looked up. A next-pointer chain reads an element
at the stale pointer as if it were a next pointer. Such a chain is meant to be consumed from; its
producer is `qed_chain_recycle_consumed`.
-/

namespace FastLinQ.Qed

open Paged List Nat ChainInfo DmaEnv ChainShape

inductive ChainOp
  | produce
  | consume
  deriving DecidableEq, Repr

/-- A chain and the addresses it has handed out. -/
structure ChainRun where
  chain : Chain
  produced : List ℕ
  consumed : List ℕ

def ChainRun.step (r : ChainRun) : ChainOp → ChainRun
  | .produce =>
    { r with chain := (qedChainProduce r.chain).2
             produced := r.produced ++ [(qedChainProduce r.chain).1] }
  | .consume =>
    { r with chain := (qedChainConsume r.chain).2
             consumed := r.consumed ++ [(qedChainConsume r.chain).1] }

def chainRun (c : Chain) (ops : List ChainOp) : ChainRun := ops.foldl ChainRun.step ⟨c, [], []⟩

/-- The walk of one side: `l` is the list of addresses handed out so far. -/
def Walked (i : ChainInfo) (base : ℕ → ℕ) (s : ChainSide) (l : List ℕ) : Prop :=
  SideAt i base s l.length ∧ l = (range l.length).map (i.elemAddr base)

variable {base : ℕ → ℕ} {i : ChainInfo}

theorem Walked.nil {s : ChainSide} (h : SideAt i base s 0) : Walked i base s [] := ⟨h, rfl⟩

theorem Walked.snoc {e : ℕ} (R : i.Ring base e) {s : ChainSide} {l : List ℕ}
    (h : Walked i base s l) :
    Walked i base (qedChainNextElem i s).2 (l ++ [(qedChainNextElem i s).1]) := by
  obtain ⟨hat, hl⟩ := h
  obtain ⟨h₁, h₂⟩ := nextElem_spec R hat
  refine ⟨by simpa using h₂, ?_⟩
  rw [length_append, length_singleton, range_succ, map_append, ← hl, h₁]
  rfl

/-! ## The start -/

section Start

variable {c : Chain} {base : ℕ → ℕ} {e : ℕ} (R : c.Ring base e)

include R

theorem reset_pageIdx (hm : c.mode = .pbl) : c.wrap (Word.sub 32 c.pageCnt 1) = c.pageCnt - 1 := by
  have hN := R.pageCnt_pos
  have hlt := R.pageCnt_lt hm
  have hle := R.pageCnt_le hm
  rw [Word.sub_of_le_of_lt (by omega) (by omega)]
  exact mod_eq_of_lt (by omega)

theorem sideAt_reset_cons : SideAt c base (qedChainReset c).cons 0 := by
  rw [qedChainReset_cons]
  refine ⟨by simp [resetSide, R.first], by simp [resetSide], fun hm => ?_⟩
  simp [resetSide, hm, reset_pageIdx R hm]

/-- A chain that starts full starts with a whole number of pages. -/
theorem idxAt_initial_mod (h : c.mode = .nextPtr → c.intendedUse ≠ .toConsume) :
    c.idxAt c.initial % 2 ^ e = 0 := by
  by_cases hu : c.intendedUse = .toConsume
  · have hm : c.mode ≠ .nextPtr := fun hc => h hc hu
    have hbits : e ≤ 32 := by
      have := R.bits_le
      cases hc : c.cntType <;> simp only [hc, ChainCntType.bits] at this <;> omega
    rw [idxAt, slots_of_ne hm, wrap_mod R.toPow2, initial]
    simp only [hu]
    rw [R.capacity_eq, Word.mod_two_pow_mod hbits, usable_eq R.toPow2 hm, mul_mod_right]
  · rw [initial_eq_zero hu, c.idxAt_zero, zero_mod]

theorem sideAt_reset_prod (h : c.mode = .nextPtr → c.intendedUse ≠ .toConsume) :
    SideAt c base (qedChainReset c).prod 0 := by
  rw [qedChainReset_prod R.toPow2.indexed]
  refine ⟨by simp [resetSide, R.first], ?_, fun hm => ?_⟩
  · rw [fill_zero, R.perPage]
    exact idxAt_initial_mod R h
  · simp [resetSide, hm, reset_pageIdx R hm]

end Start

/-! ## Runs -/

/-- What a run keeps: the fixed part of the chain, the walk of the consumer, and the walk of the
producer where it starts well. -/
structure RunInv (i : ChainInfo) (base : ℕ → ℕ) (r : ChainRun) : Prop where
  info : r.chain.toChainInfo = i
  cons : Walked i base r.chain.cons r.consumed
  prod : (i.mode = .nextPtr → i.intendedUse ≠ .toConsume) → Walked i base r.chain.prod r.produced

theorem RunInv.step {e : ℕ} (R : i.Ring base e) {r : ChainRun} (h : RunInv i base r)
    (op : ChainOp) :
    RunInv i base (r.step op) := by
  obtain ⟨rfl, hc, hp⟩ := h
  cases op with
  | produce => exact ⟨rfl, hc, fun hu => (hp hu).snoc R⟩
  | consume => exact ⟨rfl, hc.snoc R, hp⟩

theorem runInv_chainRun {c : Chain} {e : ℕ} (R : c.Ring base e) (ops : List ChainOp) :
    RunInv c base (chainRun (qedChainReset c) ops) := by
  unfold chainRun
  induction ops using reverseRecOn with
  | nil =>
    exact ⟨qedChainReset_info c, .nil (sideAt_reset_cons R),
      fun hu => .nil (sideAt_reset_prod R hu)⟩
  | append_singleton ops op ih =>
    rw [foldl_append]
    exact ih.step R op

/-! ## Places in memory -/

section Places

variable {i : ChainInfo} {env : DmaEnv} {sz : ℕ} (hd : env.Disjoint sz i.pageCnt)
  (hN : 0 < i.pageCnt) (hU : 0 < i.usablePerPage)
  (hsz : (i.usablePerPage + i.elemUnusable) * i.elemSize ≤ sz)

include hU hsz in
theorem slot_end_le (k : ℕ) :
    k % i.usablePerPage * i.elemSize + i.elemSize ≤ i.usablePerPage * i.elemSize ∧
      i.usablePerPage * i.elemSize + i.elemUnusable * i.elemSize ≤ sz := by
  have hlt : k % i.usablePerPage < i.usablePerPage := mod_lt _ hU
  refine ⟨?_, by rwa [← Nat.add_mul]⟩
  rw [← succ_mul]
  exact Nat.mul_le_mul_right _ hlt

include hd hN hU hsz in
/-- **Elements less than a turn apart have different addresses.** -/
theorem elemAddr_ne (hes : 0 < i.elemSize) {j k : ℕ} (hjk : j < k)
    (hk : k < j + i.usablePerPage * i.pageCnt) :
    i.elemAddr env.addr j ≠ i.elemAddr env.addr k := by
  have hne := place_ne hjk hk
  obtain ⟨hj₁, hj₂⟩ := slot_end_le hU hsz j
  obtain ⟨hk₁, -⟩ := slot_end_le hU hsz k
  unfold elemAddr
  by_cases hpage : j / i.usablePerPage % i.pageCnt = k / i.usablePerPage % i.pageCnt
  · -- same page: the slots differ
    have hslot : j % i.usablePerPage ≠ k % i.usablePerPage := fun h => hne (Prod.ext hpage h)
    rw [hpage]
    intro h
    exact hslot (eq_of_mul_eq_mul_right hes (by omega))
  · have := hd _ (mod_lt (j / i.usablePerPage) hN) _ (mod_lt (k / i.usablePerPage) hN) hpage
    omega

include hd hN hU hsz in
/-- **No element overlaps a next pointer.** -/
theorem elemAddr_avoids (hu : sizeofChainNext ≤ i.elemUnusable * i.elemSize) (k : ℕ) {j : ℕ}
    (hj : j < i.pageCnt) :
    i.elemAddr env.addr k + i.elemSize ≤ env.addr j + i.usablePerPage * i.elemSize ∨
      env.addr j + i.usablePerPage * i.elemSize + sizeofChainNext ≤ i.elemAddr env.addr k := by
  obtain ⟨hk₁, hk₂⟩ := slot_end_le hU hsz k
  unfold elemAddr
  by_cases hpage : k / i.usablePerPage % i.pageCnt = j
  · rw [hpage]
    omega
  · have := hd _ (mod_lt (k / i.usablePerPage) hN) _ hj hpage
    omega

end Places

theorem nodup_drop_walk {f : ℕ → ℕ} {n m w : ℕ} (hw : n ≤ m + w)
    (hf : ∀ j k, j < k → k < j + w → f j ≠ f k) :
    (((range n).map f).drop m).Nodup := by
  rw [← map_drop, range_eq_range', drop_range', nodup_iff_pairwise_ne, pairwise_map]
  refine Pairwise.imp_of_mem ?_ (pairwise_lt_range' 1)
  intro a b ha hb hab
  rw [mem_range'_1] at ha hb
  exact hf a b hab (by omega)

/-- **A chain is a ring buffer.** For every chain that `qed_chain_alloc` admits with `2^e`
elements in a page, and every interleaving of calls after a reset: the `k`-th consumer is given
element `k` of the ring, and so is the `k`-th producer unless the chain is a next-pointer chain
that starts full. While at most `capacity` produced elements are unconsumed no two of them share
an address, and no address handed out overlaps a next pointer. -/
theorem chainRun_fifo {env : DmaEnv} {p : ChainParams} {c : Chain} {e : ℕ}
    (h : qedChainAlloc env p = .ok c) (hd : env.Disjoint p.pageSize p.pageCnt) (he : e < 16)
    (hpow : elemsPerPage p.pageSize (p.elemSize % 2 ^ 8) = 2 ^ e) (hU : 0 < c.usablePerPage)
    (ops : List ChainOp) :
    let r := chainRun (qedChainReset c) ops
    let addr := c.elemAddr env.addr
    r.consumed = (range r.consumed.length).map addr ∧
      ((c.mode = .nextPtr → c.intendedUse ≠ .toConsume) →
        r.produced = (range r.produced.length).map addr ∧
          (r.produced.length ≤ r.consumed.length + c.capacity →
            (r.produced.drop r.consumed.length).Nodup)) ∧
      (c.mode = .nextPtr → ∀ a, (a ∈ r.consumed ∨ (c.intendedUse ≠ .toConsume ∧ a ∈ r.produced)) →
          ∀ j < c.pageCnt, a + c.elemSize ≤ env.addr j + c.usablePerPage * c.elemSize ∨
              env.addr j + c.usablePerPage * c.elemSize + sizeofChainNext ≤ a) := by
  have R := ring_of_alloc h hd he hpow hU
  have hsz := elems_le_pageSize h hd he hpow hU
  obtain ⟨hes, -, -, -⟩ := alloc_ok h
  obtain ⟨hs, -, -⟩ := linked_of_alloc (pageSize_pos hpow) hd h
  have hd' : env.Disjoint p.pageSize c.pageCnt := by rw [hs]; exact hd
  have hes' : c.elemSize = p.elemSize % 2 ^ 8 := by rw [hs]; rfl
  have inv := runInv_chainRun R ops
  intro r addr
  have hcons := inv.cons.2
  refine ⟨hcons, fun hu => ⟨(inv.prod hu).2, fun hcap => ?_⟩, fun hm a ha j hj => ?_⟩
  · rw [show r.produced = (range r.produced.length).map addr from (inv.prod hu).2]
    refine nodup_drop_walk ?_ fun j k hjk hk =>
      elemAddr_ne hd' R.pageCnt_pos hU hsz (by omega) hjk hk
    have := mod_le (c.usablePerPage * c.pageCnt) (2 ^ 32)
    rw [← R.capacity_eq] at this
    omega
  · have hroom : sizeofChainNext ≤ c.elemUnusable * c.elemSize := by
      have hun : c.elemUnusable = unusableElemsPerPage (p.elemSize % 2 ^ 8) .nextPtr := by
        rw [hs] at hm ⊢
        exact congrArg (unusableElemsPerPage (p.elemSize % 2 ^ 8)) hm
      rw [hun, hes']
      exact sizeofChainNext_le_unusable (by omega)
    have hmem : ∃ k, a = addr k := by
      rcases ha with ha | ⟨hu, ha⟩
      · rw [hcons, mem_map] at ha
        obtain ⟨k, -, rfl⟩ := ha
        exact ⟨k, rfl⟩
      · rw [show r.produced = (range r.produced.length).map addr from
          (inv.prod fun _ => hu).2, mem_map] at ha
        obtain ⟨k, -, rfl⟩ := ha
        exact ⟨k, rfl⟩
    obtain ⟨k, rfl⟩ := hmem
    exact elemAddr_avoids hd' R.pageCnt_pos hU hsz hroom k hj

/-- Two pages of 31 elements of 128 bytes, linked by next pointers. -/
def nextPtrParams (use : ChainUseMode) : ChainParams :=
  { intendedUse := use, mode := .nextPtr, cntType := .u16, numElems := 62, elemSize := 128,
    pageSize := QED_CHAIN_PAGE_SIZE, extPbl := none }

/-- The ring at work: the producer crosses into the second page, the consumer follows. -/
theorem chainRun_fifo_two_pages :
    let env := backToBack 0x10000 QED_CHAIN_PAGE_SIZE
    ∃ c, qedChainAlloc env (nextPtrParams .toProduce) = .ok c ∧ c.capacity = 62 ∧
      (chainRun (qedChainReset c)
        (replicate 32 .produce ++ [.consume])).produced.drop 30 =
          [env.addr 0 + 30 * 128, env.addr 1] := by
  intro env
  have hc : qedChainAlloc env (nextPtrParams .toProduce) = .ok _ := rfl
  refine ⟨_, hc, by decide +kernel, ?_⟩
  have h := ((chainRun_fifo (e := 5) hc (backToBack_disjoint _ _ _) (by decide)
    (by decide +kernel) (by decide +kernel) (replicate 32 .produce ++ [.consume])).2.1
      (fun _ => by decide +kernel)).1
  exact (congrArg (drop 30) h).trans (by decide +kernel)

/-- A next-pointer chain that starts full does not hand its elements out in order: the first
producer looks for the next page in element 0 and is given the null pointer it finds there. -/
theorem produce_of_full_nextPtr :
    ¬ ∀ (env : DmaEnv) (p : ChainParams) (c : Chain) (e : ℕ), qedChainAlloc env p = .ok c →
      env.Disjoint p.pageSize p.pageCnt → e < 16 →
      elemsPerPage p.pageSize (p.elemSize % 2 ^ 8) = 2 ^ e → 0 < c.usablePerPage →
      ∀ ops, (chainRun (qedChainReset c) ops).produced =
        (range (chainRun (qedChainReset c) ops).produced.length).map
          (c.elemAddr env.addr) := by
  intro h
  have := h (backToBack 0x10000 QED_CHAIN_PAGE_SIZE) (nextPtrParams .toConsume) _ 5 rfl
    (backToBack_disjoint _ _ _) (by decide) (by decide +kernel) (by decide +kernel)
    [.produce]
  revert this
  decide +kernel

end FastLinQ.Qed
