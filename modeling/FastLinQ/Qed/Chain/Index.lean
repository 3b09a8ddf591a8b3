import FastLinQ.Qed.Chain.Ring

/-!
# The shape of an admitted chain, and its indices

Over `k` elements the cyclic index of a side counts `k` slots and the `elemUnusable` slots of every
page that was left on the way: `slots i k`, wrapped to the width of the counter. Producing,
consuming and recycling all skip lazily, so they share one law, `nextElem_idx` and `recycle_idx`; on
a chain without next pointers there is nothing to skip and no power of two is needed
(`ChainShape.Indexed`).
-/

namespace FastLinQ.Qed

open Paged Nat ChainShape

/-! ## Geometry -/

theorem unusable_nextPtr (elemSize : ℕ) :
    unusableElemsPerPage elemSize .nextPtr = 1 + 15 / elemSize ∧
      unusableElemsPerPage elemSize .nextPtr ≤ 16 := by
  have h : 15 / elemSize ≤ 15 := div_le_self 15 elemSize
  have hmod : unusableElemsPerPage elemSize .nextPtr = (1 + 15 / elemSize) % 2 ^ 8 := rfl
  rw [hmod, mod_eq_of_lt (by omega)]
  omega

/-- A next pointer fits in the elements that are left out for it. -/
theorem sizeofChainNext_le_unusable {elemSize : ℕ} (h : 0 < elemSize) :
    sizeofChainNext ≤ unusableElemsPerPage elemSize .nextPtr * elemSize := by
  have := lt_mul_div_succ 15 h
  rw [(unusable_nextPtr elemSize).1, sizeofChainNext, add_comm, mul_comm]
  omega

/-- The usable elements of a page, when the page is big enough for its next pointer and the
count fits its 16-bit field. -/
theorem usable_eq_sub {elemSize pageSize e : ℕ} (mode : ChainMode) (he : e < 16)
    (hpow : elemsPerPage pageSize elemSize = 2 ^ e)
    (hle : unusableElemsPerPage elemSize mode ≤ 2 ^ e) :
    usableElemsPerPage elemSize pageSize mode % 2 ^ 16 =
      2 ^ e - unusableElemsPerPage elemSize mode := by
  have hlt : 2 ^ e < 2 ^ 16 := Nat.pow_lt_pow_right (by omega) he
  rw [usableElemsPerPage, hpow, Word.sub_of_le_of_lt hle (by omega), mod_eq_of_lt (by omega)]

/-- If a next pointer behind the usable elements stays inside the page, the unusable elements
were not more than the page. -/
theorem unusable_le_of_room {elemSize pageSize e : ℕ} (hes : 0 < elemSize)
    (hpow : elemsPerPage pageSize elemSize = 2 ^ e)
    (hroom : elemSize * (usableElemsPerPage elemSize pageSize .nextPtr % 2 ^ 16) +
      sizeofChainNext ≤ pageSize) :
    unusableElemsPerPage elemSize .nextPtr ≤ 2 ^ e := by
  by_contra hc
  obtain ⟨-, hu⟩ := unusable_nextPtr elemSize
  -- the 32-bit difference wraps to a number of elements far beyond the page
  have hbig : 65520 ≤ usableElemsPerPage elemSize pageSize .nextPtr % 2 ^ 16 := by
    simp only [usableElemsPerPage, hpow, Word.sub]
    omega
  have hpage : pageSize < elemSize * (2 ^ e + 1) := by
    rw [← hpow]
    exact lt_mul_div_succ pageSize hes
  have h₁ :
      elemSize * 65520 ≤ elemSize * (usableElemsPerPage elemSize pageSize .nextPtr % 2 ^ 16) :=
    mul_le_mul_left _ hbig
  have h₂ : elemSize * (2 ^ e + 1) ≤ elemSize * 17 := mul_le_mul_left _ (by omega)
  omega

theorem pow2_of_init {pageCnt elemSize pageSize e : ℕ} {use : ChainUseMode} {mode : ChainMode}
    {cnt : ChainCntType} (he : e < 16) (hpow : elemsPerPage pageSize elemSize = 2 ^ e)
    (hle : unusableElemsPerPage elemSize mode ≤ 2 ^ e)
    (hpos : 0 < (qedChainInit pageCnt elemSize pageSize use mode cnt).usablePerPage) :
    (qedChainInit pageCnt elemSize pageSize use mode cnt).Pow2 e := by
  have hlt : 2 ^ e < 2 ^ 16 := Nat.pow_lt_pow_right (by omega) he
  have hone : 1 ≤ 2 ^ e := Nat.one_le_two_pow
  have hU := usable_eq_sub mode he hpow hle
  have hmask : (qedChainInit pageCnt elemSize pageSize use mode cnt).elemPerPageMask =
      2 ^ e - 1 := by
    simp only [qedChainInit, hpow, mod_eq_of_lt hlt]
    exact Word.sub_of_le_of_lt hone hlt
  refine ⟨?_, ?_, hmask, ?_, hpos, ?_, ?_, ?_, rfl⟩
  · cases cnt <;> simp only [qedChainInit, ChainCntType.bits] <;> omega
  · simp only [qedChainInit, hpow, mod_eq_of_lt hlt]
  · show _ &&& (qedChainInit pageCnt elemSize pageSize use mode cnt).elemPerPageMask = _
    rw [hmask, and_two_pow_sub_one_eq_mod]
    rfl
  · show usableElemsPerPage elemSize pageSize mode % 2 ^ 16 + unusableElemsPerPage elemSize mode =
      2 ^ e
    omega
  · rintro hm
    obtain rfl : mode = .nextPtr := hm
    show 0 < unusableElemsPerPage elemSize .nextPtr
    rw [(unusable_nextPtr elemSize).1]
    exact Nat.add_pos_left one_pos _
  · intro hm
    cases mode
    · exact absurd rfl hm
    · rfl
    · rfl

variable {c : Chain} {p : ChainParams} {env : DmaEnv}

/-- The page count of an admitted chain with a page table fits the page index. -/
theorem pageCnt_le_of_alloc (h : qedChainAlloc env p = .ok c) (hm : p.mode = .pbl) :
    p.pageCnt ≤ 2 ^ p.cntType.bits := by
  obtain ⟨-, hus, hsan, -⟩ := alloc_ok h
  have hone : 1 ≤ elemsPerPage p.pageSize p.elemSize := by
    rcases hus with hus | hus
    · rw [hm] at hus
      cases hus
    · rw [hm] at hus
      by_contra hc
      apply hus
      simp [usableElemsPerPage, unusableElemsPerPage,
        show elemsPerPage p.pageSize p.elemSize = 0 by omega, Word.sub]
  exact (Nat.le_mul_of_pos_left _ hone).trans (sanityCheck_le hsan).1

theorem pageSize_pos {pageSize elemSize e : ℕ} (hpow : elemsPerPage pageSize elemSize = 2 ^ e) :
    0 < pageSize := by
  by_contra hc
  have : 1 ≤ 2 ^ e := Nat.one_le_two_pow
  simp only [elemsPerPage, show pageSize = 0 by omega, Nat.zero_div] at hpow
  omega

variable {e : ℕ}

/-- **An admitted chain with a power of two of elements in a page is a ring.** -/
theorem ring_of_alloc (h : qedChainAlloc env p = .ok c) (hd : env.Disjoint p.pageSize p.pageCnt)
    (he : e < 16) (hpow : elemsPerPage p.pageSize (p.elemSize % 2 ^ 8) = 2 ^ e)
    (hU : 0 < c.usablePerPage) :
    c.Ring env.addr e := by
  obtain ⟨hes, -, -, -⟩ := alloc_ok h
  obtain ⟨hs, hl, hroom⟩ := linked_of_alloc (pageSize_pos hpow) hd h
  have hle : unusableElemsPerPage (p.elemSize % 2 ^ 8) p.mode ≤ 2 ^ e := by
    cases hm : p.mode with
    | nextPtr =>
      refine unusable_le_of_room (by omega) hpow ?_
      have := hroom hm
      rw [hs] at this
      simpa only [ChainParams.init, qedChainInit, hm] using this
    | single => exact zero_le _
    | pbl => exact zero_le _
  have hP : c.Pow2 e := by
    rw [hs] at hU ⊢
    exact pow2_of_init he hpow hle hU
  refine ⟨hl, hP, fun hm => ?_⟩
  rw [hs] at hm ⊢
  exact pageCnt_le_of_alloc h hm

/-- The usable elements of an admitted ring lie inside their page. -/
theorem elems_le_pageSize (h : qedChainAlloc env p = .ok c) (hd : env.Disjoint p.pageSize p.pageCnt)
    (he : e < 16) (hpow : elemsPerPage p.pageSize (p.elemSize % 2 ^ 8) = 2 ^ e)
    (hU : 0 < c.usablePerPage) :
    (c.usablePerPage + c.elemUnusable) * c.elemSize ≤ p.pageSize := by
  have R := ring_of_alloc h hd he hpow hU
  obtain ⟨hs, -, -⟩ := linked_of_alloc (pageSize_pos hpow) hd h
  have hsz : c.elemSize = p.elemSize % 2 ^ 8 := by
    rw [hs]
    rfl
  rw [R.usable_add, hsz, ← hpow]
  exact div_mul_le_self _ _

/-! ## The index -/

/-- The slots that `k` elements take, counted from zero: on a next-pointer chain the unusable
slots of every page that was left count as well. -/
def ChainShape.slots (i : ChainShape) (k : ℕ) : ℕ :=
  match i.mode with
  | .nextPtr => i.elemPerPage * lastPage i.usablePerPage k + fill i.usablePerPage k
  | .single | .pbl => k

def ChainShape.idxAt (i : ChainShape) (k : ℕ) : ℕ := i.wrap (i.slots k)

variable {i : ChainShape}

theorem slots_nextPtr (hm : i.mode = .nextPtr) (k : ℕ) :
    i.slots k = i.elemPerPage * lastPage i.usablePerPage k + fill i.usablePerPage k := by
  simp only [slots, hm]

theorem slots_of_ne (hm : i.mode ≠ .nextPtr) (k : ℕ) : i.slots k = k := by
  unfold slots
  cases hmode : i.mode with
  | nextPtr => exact absurd hmode hm
  | single => rfl
  | pbl => rfl

@[simp] theorem ChainShape.slots_zero (i : ChainShape) : i.slots 0 = 0 := by
  by_cases hm : i.mode = .nextPtr
  · simp [slots_nextPtr hm]
  · exact slots_of_ne hm 0

@[simp] theorem ChainShape.idxAt_zero (i : ChainShape) : i.idxAt 0 = 0 := by
  simp [idxAt, wrap]

theorem ChainShape.wrap_wrap (i : ChainShape) (x : ℕ) : i.wrap (i.wrap x) = i.wrap x :=
  mod_mod ..

theorem ChainShape.wrap_wrap_add (i : ChainShape) (x y : ℕ) :
    i.wrap (i.wrap x + y) = i.wrap (x + y) :=
  mod_add_mod ..

theorem idxAt_mod (P : i.Pow2 e) (k : ℕ) : i.idxAt k % 2 ^ e = fill i.usablePerPage k % 2 ^ e := by
  rw [idxAt, wrap_mod P]
  by_cases hm : i.mode = .nextPtr
  · rw [slots_nextPtr hm, P.perPage, mul_add_mod]
  · conv_lhs => rw [slots_of_ne hm, ← lastPage_mul_add_fill i.usablePerPage k]
    rw [← usable_eq P hm, mul_add_mod]

/-- The part of the geometry an index depends on: a power of two of slots in a page is needed
only where there are slots to skip. -/
structure ChainShape.Indexed (i : ChainShape) (e : ℕ) : Prop where
  pow2 : i.mode = .nextPtr → i.Pow2 e
  skips_none : i.mode ≠ .nextPtr → i.elemUnusable = 0

theorem ChainShape.Pow2.indexed (P : i.Pow2 e) : i.Indexed e := ⟨fun _ => P, P.unusable_zero⟩

theorem nextElem_idx_of_ne {i : ChainInfo} (hm : i.mode ≠ .nextPtr) (s : ChainSide) :
    (qedChainNextElem i s).2.idx = i.wrap (s.idx + 1) := by
  unfold qedChainNextElem qedChainAdvancePage
  cases hmode : i.mode with
  | nextPtr => exact absurd hmode hm
  | single => split <;> rfl
  | pbl => split <;> rfl

/-- The index step of producing and consuming on a next-pointer chain: skip the unusable slots
at the end of a page, then count. -/
theorem nextElem_idx_of_eq {i : ChainInfo} (hm : i.mode = .nextPtr) (s : ChainSide) :
    (qedChainNextElem i s).2.idx =
      if s.idx &&& i.elemPerPageMask = i.nextPageMask then i.wrap (s.idx + i.elemUnusable + 1)
      else i.wrap (s.idx + 1) := by
  unfold qedChainNextElem qedChainAdvancePage
  simp only [hm]
  split
  · exact i.wrap_wrap_add _ _
  · rfl

/-- One element more on a next-pointer chain, before the index is wrapped. -/
theorem slots_succ (P : i.Pow2 e) (hm : i.mode = .nextPtr) (k : ℕ) :
    i.slots (k + 1) =
      if fill i.usablePerPage k = i.usablePerPage then i.slots k + i.elemUnusable + 1
      else i.slots k + 1 := by
  have hU := P.usable_pos
  have hle := fill_le hU k
  rw [slots_nextPtr hm, slots_nextPtr hm]
  split
  · rename_i hat
    obtain ⟨hq, hr⟩ := succ_of_fill_eq hU hat
    rw [hq, hr, hat, P.perPage, ← P.usable_add]
    ring
  · obtain ⟨hq, hr⟩ := succ_of_fill_lt (show fill i.usablePerPage k < i.usablePerPage by omega)
    rw [hq, hr, add_assoc]

theorem idxAt_succ (P : i.Pow2 e) (hm : i.mode = .nextPtr) (k : ℕ) :
    i.idxAt (k + 1) =
      if i.idxAt k % 2 ^ e = i.usablePerPage % 2 ^ e then
        i.wrap (i.idxAt k + i.elemUnusable + 1)
      else i.wrap (i.idxAt k + 1) := by
  have hlt := usable_lt P hm
  have hle := fill_le P.usable_pos k
  rw [idxAt_mod P, mod_eq_of_lt hlt,
    mod_eq_of_lt (show fill i.usablePerPage k < 2 ^ e by omega), idxAt,
    slots_succ P hm]
  split
  · rw [idxAt, add_assoc, add_assoc, i.wrap_wrap_add]
  · rw [idxAt, i.wrap_wrap_add]

/-- **The index of a side that hands out elements** counts them, lazily. -/
theorem nextElem_idx {i : ChainInfo} (I : i.Indexed e) {s : ChainSide} {k : ℕ}
    (h : s.idx = i.idxAt k) : (qedChainNextElem i s).2.idx = i.idxAt (k + 1) := by
  by_cases hm : i.mode = .nextPtr
  · rw [nextElem_idx_of_eq hm, idxAt_succ (I.pow2 hm) hm, h]
    simp only [fires_iff (I.pow2 hm)]
  · rw [nextElem_idx_of_ne hm, h, idxAt, idxAt, slots_of_ne hm, slots_of_ne hm, i.wrap_wrap_add]

theorem testAndSkip_idx {i : ChainInfo} (P : i.Pow2 e) (hm : i.mode = .nextPtr) (s : ChainSide) :
    testAndSkip i s = { s with idx :=
      if s.idx % 2 ^ e = i.usablePerPage % 2 ^ e then i.wrap (s.idx + i.elemUnusable)
      else s.idx } := by
  simp only [testAndSkip, P.mask, and_two_pow_sub_one_eq_mod, mod_eq_of_lt (usable_lt P hm)]
  split <;> rfl

theorem testAndSkip_of_ne {i : ChainInfo} (hu : i.elemUnusable = 0) {s : ChainSide}
    (hs : i.wrap s.idx = s.idx) : testAndSkip i s = s := by
  simp only [testAndSkip, hu, add_zero, hs, ite_self]

/-- **Recycling counts like producing**, and moves nothing but the index. -/
theorem recycle_idx (I : c.Indexed e) {k : ℕ} (h : c.prod.idx = c.idxAt k) :
    (qedChainRecycleConsumed c).prod = { c.prod with idx := c.idxAt (k + 1) } := by
  by_cases hm : c.mode = .nextPtr
  · simp only [qedChainRecycleConsumed, testAndSkip_idx (I.pow2 hm) hm,
      idxAt_succ (I.pow2 hm) hm, h]
    split
    · rw [c.wrap_wrap_add]
    · rfl
  · have hw : c.wrap c.prod.idx = c.prod.idx := by rw [h, idxAt, c.wrap_wrap]
    simp only [qedChainRecycleConsumed, testAndSkip_of_ne (I.skips_none hm) hw, h,
      idxAt, slots_of_ne hm, c.wrap_wrap_add]

theorem recycle_iterate_prod (I : c.Indexed e) (h : c.prod.idx = c.idxAt 0) (n : ℕ) :
    (qedChainRecycleConsumed^[n] c).prod = { c.prod with idx := c.idxAt n } := by
  induction n with
  | zero => rw [Function.iterate_zero_apply, ← h]
  | succ n ih =>
    rw [Function.iterate_succ_apply', recycle_idx]
    · rw [ih, recycle_iterate_info]
    · rw [recycle_iterate_info]
      exact I
    · rw [ih, recycle_iterate_info]

/-- How many elements a reset leaves on the producer's side. -/
def ChainShape.initial (i : ChainShape) : ℕ :=
  match i.intendedUse with
  | .toConsume => i.capacity
  | .toProduce | .toConsumeProduce => 0

theorem ChainShape.initial_eq_zero (h : i.intendedUse ≠ .toConsume) : i.initial = 0 := by
  unfold initial
  cases hc : i.intendedUse with
  | toConsume => exact absurd hc h
  | toProduce => rfl
  | toConsumeProduce => rfl

theorem qedChainReset_prod (I : c.Indexed e) :
    (qedChainReset c).prod = { c.resetSide c.prod with idx := c.idxAt c.initial } := by
  unfold qedChainReset initial
  cases c.intendedUse with
  | toConsume => exact recycle_iterate_prod (by exact I) (c.idxAt_zero).symm _
  | toProduce => simp only [c.idxAt_zero]; rfl
  | toConsumeProduce => simp only [c.idxAt_zero]; rfl

end FastLinQ.Qed
