import FastLinQ.Qed.Chain.Index

/-!
# Taking produced elements back

`qed_chain_set_prod` puts the producer of a chain with a page table back to an earlier index and
pointer, and computes the page index to go with them from the distance of the two indices in
pages. The computation is done in 32 bits. For 32-bit counters it is exact. A 16-bit counter that
wrapped in between leaves a distance that is off by the `(2^32 - 2^16) / elem_per_page` pages
between the two widths, which is harmless only if what is left of the 32-bit range is a
multiple of the number of pages.
-/

namespace FastLinQ.Qed

open Paged Function List Nat Word ChainShape

/-! ## Calls -/

inductive ChainCall
  | produce
  | consume
  | returnProduced
  | recycleConsumed
  | setProd (idx elem : ℕ)
  | setCons (idx elem : ℕ)
  deriving DecidableEq, Repr

def Chain.call (c : Chain) : ChainCall → Chain
  | .produce => (qedChainProduce c).2
  | .consume => (qedChainConsume c).2
  | .returnProduced => qedChainReturnProduced c
  | .recycleConsumed => qedChainRecycleConsumed c
  | .setProd idx elem => qedChainSetProd c idx elem
  | .setCons idx elem => qedChainSetCons c idx elem

/-- A chain after a sequence of calls that starts with `qed_chain_reset`. -/
def chainCalls (c : Chain) (calls : List ChainCall) : Chain :=
  calls.foldl Chain.call (qedChainReset c)

def produceN (n : ℕ) : Chain → Chain := (fun c => (qedChainProduce c).2)^[n]

def consumeN (n : ℕ) : Chain → Chain := (fun c => (qedChainConsume c).2)^[n]

def nextSide (i : ChainInfo) (s : ChainSide) : ChainSide := (qedChainNextElem i s).2

theorem produceN_eq (n : ℕ) (c : Chain) :
    produceN n c = { c with prod := (nextSide c)^[n] c.prod } := by
  unfold produceN
  induction n with
  | zero => rfl
  | succ n ih =>
    rw [iterate_succ_apply', iterate_succ_apply', ih]
    rfl

theorem consumeN_eq (n : ℕ) (c : Chain) :
    consumeN n c = { c with cons := (nextSide c)^[n] c.cons } := by
  unfold consumeN
  induction n with
  | zero => rfl
  | succ n ih =>
    rw [iterate_succ_apply', iterate_succ_apply', ih]
    rfl

theorem chainCalls_produce (c : Chain) (n : ℕ) :
    chainCalls c (replicate n .produce) = produceN n (qedChainReset c) := by
  unfold chainCalls produceN
  induction n with
  | zero => rfl
  | succ n ih =>
    rw [replicate_succ', foldl_append, ih, iterate_succ_apply']
    rfl

variable {i : ChainInfo} {s : ChainSide}

theorem nextSide_iterate_idx (hm : i.mode ≠ .nextPtr) {x : ℕ} (hs : s.idx = i.wrap x) (n : ℕ) :
    ((nextSide i)^[n] s).idx = i.wrap (x + n) := by
  induction n with
  | zero => exact hs
  | succ n ih =>
    rw [iterate_succ_apply', nextSide, nextElem_idx_of_ne hm, ih]
    simp only [wrap, mod_add_mod, add_assoc]

/-! ## Sides in range -/

/-- The index fits its counter and the page index names a page. -/
structure SideOk (i : ChainInfo) (s : ChainSide) : Prop where
  idx : s.idx < 2 ^ i.cntType.bits
  page : s.pageIdx < i.pageCnt

section Side

variable {i : ChainInfo} {base : ℕ → ℕ} {e : ℕ} (R : i.Ring base e) (hm : i.mode = .pbl)

include R hm

variable {s : ChainSide}

/-- One element of a chain with a page table: the page index moves if the element is the first
of its page. -/
theorem nextSide_spec (h : SideOk i s) :
    (nextSide i s).idx = i.wrap (s.idx + 1) ∧ (nextSide i s).pageIdx =
        if s.idx % 2 ^ e = 0 then (s.pageIdx + 1) % i.pageCnt else s.pageIdx := by
  refine ⟨nextElem_idx_of_ne (by simp [hm]) s, ?_⟩
  have hfire := fires_iff R.toPow2 s.idx
  rw [usable_eq R.toPow2 (by simp [hm]), mod_self] at hfire
  have hpage := pageIdx_succ R hm (q := s.pageIdx)
  rw [mod_eq_of_lt h.page] at hpage
  simp only [nextSide, qedChainNextElem, qedChainAdvancePage, hm, hfire]
  split
  · exact hpage
  · rfl

theorem SideOk.next (h : SideOk i s) : SideOk i (nextSide i s) := by
  obtain ⟨h₁, h₂⟩ := nextSide_spec R hm h
  refine ⟨?_, ?_⟩
  · exact mod_lt _ (Nat.two_pow_pos _)
  · rw [h₂]
    split
    · exact mod_lt _ R.pageCnt_pos
    · exact h.page

theorem nextSide_iterate (h : SideOk i s) (n : ℕ) :
    SideOk i ((nextSide i)^[n] s) ∧ ((nextSide i)^[n] s).idx = i.wrap (s.idx + n) ∧
      ((nextSide i)^[n] s).pageIdx =
        (s.pageIdx + (opened (2 ^ e) (s.idx + n) - opened (2 ^ e) s.idx)) % i.pageCnt := by
  induction n with
  | zero =>
    rw [iterate_zero_apply]
    refine ⟨h, (mod_eq_of_lt h.idx).symm, ?_⟩
    rw [add_zero, Nat.sub_self, add_zero, mod_eq_of_lt h.page]
  | succ n ih =>
    obtain ⟨hok, hidx, hpage⟩ := ih
    rw [iterate_succ_apply']
    obtain ⟨h₁, h₂⟩ := nextSide_spec R hm hok
    refine ⟨hok.next R hm, by rw [h₁, hidx, i.wrap_wrap_add, add_assoc], ?_⟩
    have hmono := opened_mono (2 ^ e) (le_add_right s.idx n)
    rw [h₂, hidx, wrap_mod R.toPow2, hpage, ← add_assoc s.idx n 1,
      opened_succ (Nat.two_pow_pos e) (s.idx + n)]
    split
    · rw [mod_add_mod, add_assoc, Nat.sub_add_comm hmono]
    · rfl

theorem SideOk.set (s : ChainSide) (idx elem : ℕ) : SideOk i (qedChainSetSide i s idx elem) := by
  refine ⟨i.wrap_lt _, ?_⟩
  simp only [qedChainSetSide, hm]
  exact (mod_le _ _).trans_lt (mod_lt _ R.pageCnt_pos)

theorem SideOk.reset (s : ChainSide) : SideOk i (i.resetSide s) := by
  have hN := R.pageCnt_pos
  have hlt := R.pageCnt_lt hm
  refine ⟨Nat.two_pow_pos _, ?_⟩
  simp only [ChainInfo.resetSide, hm]
  rw [sub_of_le_of_lt hN (by omega)]
  exact (mod_le _ _).trans_lt (by omega)

end Side

theorem SideOk.of_idx (h : SideOk i s) (x : ℕ) : SideOk i { s with idx := i.wrap x } :=
  ⟨i.wrap_lt _, h.page⟩

theorem SideOk.skip (h : SideOk i s) : SideOk i (testAndSkip i s) := by
  unfold testAndSkip
  split
  · exact h.of_idx _
  · exact h

variable {base : ℕ → ℕ} {c : Chain}

/-- **Both sides stay in range under every call.** -/
theorem sideOk_calls {e : ℕ} (R : c.Ring base e) (hm : c.mode = .pbl) (calls : List ChainCall) :
    (chainCalls c calls).toChainInfo = c.toChainInfo ∧
      SideOk c (chainCalls c calls).prod ∧
      SideOk c (chainCalls c calls).cons := by
  unfold chainCalls
  induction calls using reverseRecOn with
  | nil =>
    refine ⟨qedChainReset_info c, ?_, ?_⟩
    · rw [foldl_nil, qedChainReset_prod R.toPow2.indexed]
      exact (SideOk.reset R hm c.prod).of_idx _
    · rw [foldl_nil, qedChainReset_cons]
      exact SideOk.reset R hm c.cons
  | append_singleton calls call ih =>
    obtain ⟨hi, hp, hc⟩ := ih
    rw [foldl_append, foldl_cons]
    rw [← hi] at R hm hp hc ⊢
    cases call with
    | produce => exact ⟨rfl, hp.next R hm, hc⟩
    | consume => exact ⟨rfl, hp, hc.next R hm⟩
    | returnProduced => exact ⟨rfl, hp, (hc.of_idx _).skip⟩
    | recycleConsumed => exact ⟨rfl, hp.skip.of_idx _, hc⟩
    | setProd idx elem => exact ⟨rfl, SideOk.set R hm _ idx elem, hc⟩
    | setCons idx elem => exact ⟨rfl, hp, SideOk.set R hm _ idx elem⟩

theorem chainCalls_produce_idx {e : ℕ} (R : c.Ring base e) (hm : c.mode = .pbl)
    (hu : c.intendedUse ≠ .toConsume) (n : ℕ) :
    (chainCalls c (replicate n .produce)).prod.idx = c.wrap n := by
  have hzero : (qedChainReset c).prod.idx = 0 := by
    rw [qedChainReset_prod R.toPow2.indexed, initial_eq_zero hu, c.idxAt_zero]
  have hok := (sideOk_calls R hm []).2.1
  have hidx := (nextSide_iterate R hm hok n).2.1
  rw [chainCalls_produce, produceN_eq, qedChainReset_info]
  refine hidx.trans ?_
  change c.wrap ((qedChainReset c).prod.idx + n) = c.wrap n
  rw [hzero, zero_add]

/-! ## The distance in pages -/

/-- The start of the page that holds the element before index `x`, in 32 bits. -/
theorem pred_and_mask {e x : ℕ} (he : e ≤ 32) (hx : x < 2 ^ 32) :
    Word.sub 32 x 1 &&& (2 ^ 32 - 1 - (2 ^ e - 1)) =
      Word.sub (32 - e) (opened (2 ^ e) x) 1 * 2 ^ e := by
  have hsplit : 2 ^ 32 = 2 ^ e * 2 ^ (32 - e) := by rw [← pow_add, Nat.add_sub_cancel' he]
  rw [Word.and_compl_mask he (Word.sub_lt ..)]
  congr 1
  rcases Nat.eq_zero_or_pos x with rfl | hpos
  · -- both predecessors of zero are the last number of their range
    obtain ⟨m, hm⟩ := Nat.exists_eq_add_of_le' (Nat.one_le_two_pow (n := 32 - e))
    have hpos := Nat.two_pow_pos e
    rw [opened_zero hpos, sub_of_lt one_pos (by omega), sub_of_lt one_pos (by omega),
      zero_add, zero_add, hsplit, hm, mul_succ, Nat.add_sub_assoc Nat.one_le_two_pow,
        Nat.add_sub_cancel,
      mul_add_div hpos, div_eq_of_lt (by omega), add_zero]
  · have hlt : (x - 1) / 2 ^ e < 2 ^ (32 - e) := by
      rw [Nat.div_lt_iff_lt_mul (Nat.two_pow_pos e), mul_comm]
      omega
    rw [opened_of_pos (Nat.two_pow_pos e) hpos, sub_of_le_of_lt hpos hx,
      sub_of_le (Nat.le_add_left ..), Nat.add_sub_cancel, mod_eq_of_lt hlt]

/-- The distance that `qed_chain_set_prod` computes, in opened pages. -/
theorem pageDiff_eq {e x y : ℕ} (he : e ≤ 32) (hx : x < 2 ^ 32) (hy : y < 2 ^ 32) :
    Word.sub 32 (Word.sub 32 x 1 &&& (2 ^ 32 - 1 - (2 ^ e - 1)))
        (Word.sub 32 y 1 &&& (2 ^ 32 - 1 - (2 ^ e - 1))) / 2 ^ e =
      Word.sub (32 - e) (opened (2 ^ e) x) (opened (2 ^ e) y) := by
  have hmul := sub_mul_two_pow (32 - e) e (Word.sub (32 - e) (opened (2 ^ e) x) 1)
    (Word.sub (32 - e) (opened (2 ^ e) y) 1)
  rw [Nat.sub_add_cancel he] at hmul
  rw [pred_and_mask he hx, pred_and_mask he hy, hmul, Nat.mul_div_cancel _ (Nat.two_pow_pos e),
    Word.sub_sub_sub_cancel_right]

theorem page_back {N q adv : ℕ} (hq : q < N) (hadv : adv ≤ N) (hN : N < 2 ^ 29) :
    (Word.sub 32 ((q + adv) % N) adv + N) % 2 ^ 32 % N = q := by
  rcases lt_or_ge (q + adv) N with h | h
  · rw [mod_eq_of_lt h, sub_of_le_of_lt (Nat.le_add_left ..) (by omega),
      Nat.add_sub_cancel, mod_eq_of_lt (show q + N < 2 ^ 32 by omega), add_mod_right,
      mod_eq_of_lt hq]
  · have hmod : (q + adv) % N = q + adv - N := by
      rw [mod_eq_sub_mod h, mod_eq_of_lt (by omega)]
    rw [hmod, sub_of_lt (by omega) (by omega),
      show q + adv - N + 2 ^ 32 - adv + N = q + 2 ^ 32 by omega, add_mod_right,
      mod_eq_of_lt (show q < 2 ^ 32 by omega), mod_eq_of_lt hq]

theorem page_back_wrapped {N q adv d : ℕ} (hq : q < N) (hadv : adv ≤ N) (hd : 2 * N ≤ d)
    (hd' : N + d ≤ 2 ^ 32) :
    (Word.sub 32 ((q + adv) % N) (adv + d) + N) % 2 ^ 32 % N = (q + (2 ^ 32 - d)) % N := by
  have hlt := mod_lt (q + adv) (by omega : N > 0)
  rw [sub_of_lt (by omega) (by omega)]
  rcases lt_or_ge (q + adv) N with h | h
  · rw [mod_eq_of_lt h, show q + adv + 2 ^ 32 - (adv + d) + N = q + (2 ^ 32 - d) + N by omega,
      mod_eq_of_lt (show q + (2 ^ 32 - d) + N < 2 ^ 32 by omega), add_mod_right]
  · have hmod : (q + adv) % N = q + adv - N := by
      rw [mod_eq_sub_mod h, mod_eq_of_lt (by omega)]
    rw [hmod, show q + adv - N + 2 ^ 32 - (adv + d) + N = q + (2 ^ 32 - d) by omega,
      mod_eq_of_lt (show q + (2 ^ 32 - d) < 2 ^ 32 by omega)]

/-- Going back by a multiple of the number of pages too many does no harm. -/
theorem add_mod_eq_iff {N q m : ℕ} (hq : q < N) : (q + m) % N = q ↔ N ∣ m := by
  constructor
  · intro h
    have hmod : q + m ≡ q + 0 [MOD N] := by
      rw [ModEq, h, add_zero, mod_eq_of_lt hq]
    exact (modEq_zero_iff_dvd).1 (hmod.add_left_cancel' q)
  · rintro ⟨k, rfl⟩
    rw [add_mul_mod_self_left, mod_eq_of_lt hq]

/-! ## Rolling back -/

/-- When a side can be put back by `n` elements. -/
def ChainShape.CanRollBack (i : ChainShape) (idx n : ℕ) : Prop :=
  i.cntType = .u32 ∨ idx + n < 2 ^ 16 ∨ i.pageCnt ∣ 2 ^ 32 - (2 ^ 32 - 2 ^ 16) / i.elemPerPage
  deriving Decidable

theorem ChainShape.CanRollBack.mono {i : ChainShape} {idx n m : ℕ} (h : i.CanRollBack idx n)
    (hm : m ≤ n) : i.CanRollBack idx m :=
  h.imp_right (Or.imp_left fun hlt => by omega)

section RollBack

variable {i : ChainInfo} {base : ℕ → ℕ} {e : ℕ} (R : i.Ring base e) (hm : i.mode = .pbl)
  {s : ChainSide} (h : SideOk i s) {n : ℕ} (hn : n < i.capacity)

include R hm h

/-- Only the page index can be wrong, and it depends on the two indices. -/
theorem setSide_eq (x : ℕ) :
    qedChainSetSide i ((nextSide i)^[n] s) s.idx x =
      { elem := x
        idx := s.idx
        pageIdx := (Word.sub 32
          ((s.pageIdx + (opened (2 ^ e) (s.idx + n) - opened (2 ^ e) s.idx)) % i.pageCnt)
          (Word.sub (32 - e) (opened (2 ^ e) (i.wrap (s.idx + n))) (opened (2 ^ e) s.idx)) +
            i.pageCnt) % 2 ^ 32 % i.pageCnt } := by
  obtain ⟨-, hidx, hpage⟩ := nextSide_iterate R hm h n
  have hbits : i.cntType.bits ≤ 32 := by cases i.cntType <;> decide
  have hlt : ∀ x, x < 2 ^ i.cntType.bits → x < 2 ^ 32 := fun x hx =>
    hx.trans_le (Nat.pow_le_pow_right (by decide) hbits)
  have hdiff := pageDiff_eq (R.bits_le.trans hbits) (hlt _ (i.wrap_lt (s.idx + n))) (hlt _ h.idx)
  have hwrap : ∀ x, i.wrap (x % i.pageCnt) = x % i.pageCnt := fun x =>
    mod_eq_of_lt ((mod_lt _ R.pageCnt_pos).trans_le (R.pageCnt_le hm))
  simp only [qedChainSetSide, hm, hidx, hpage, R.mask, R.perPage, hwrap]
  rw [hdiff, show i.wrap s.idx = s.idx from mod_eq_of_lt h.idx]

include hn

omit h in
theorem opened_sub_le : opened (2 ^ e) (s.idx + n) - opened (2 ^ e) s.idx ≤ i.pageCnt := by
  have hcap : i.capacity ≤ 2 ^ e * i.pageCnt := by
    rw [R.capacity_eq, usable_eq R.toPow2 (by simp [hm])]
    exact mod_le _ _
  have hmono := opened_mono (2 ^ e) (show s.idx + n ≤ s.idx + 2 ^ e * i.pageCnt by omega)
  rw [opened_add_mul (Nat.two_pow_pos e)] at hmono
  omega

/-- Without a wrap of the counter, or with 32-bit counters, the distance is the number of
pages that were opened. -/
theorem setSide_of_sub_eq (x : ℕ)
    (hsub : Word.sub (32 - e) (opened (2 ^ e) (i.wrap (s.idx + n))) (opened (2 ^ e) s.idx) =
      opened (2 ^ e) (s.idx + n) - opened (2 ^ e) s.idx) :
    qedChainSetSide i ((nextSide i)^[n] s) s.idx x = { s with elem := x } := by
  rw [setSide_eq R hm h, hsub, page_back h.page (opened_sub_le R hm hn) (R.pageCnt_lt hm)]

end RollBack

/-- A chain with a page table whose slots fit its counters. -/
structure PblRing (i : ChainInfo) (base : ℕ → ℕ) (e : ℕ) : Prop where
  ring : i.Ring base e
  mode : i.mode = .pbl
  bits_lt : e < 16
  slots_le : 2 ^ e * i.pageCnt ≤ 2 ^ i.cntType.bits
  slots_lt : i.cntType = .u32 → 2 ^ e * i.pageCnt < 2 ^ 32

section RollBack

variable {i : ChainInfo} {base : ℕ → ℕ} {e : ℕ} (T : PblRing i base e) {s : ChainSide}
  (h : SideOk i s) {n : ℕ} (hn : n < i.capacity)

include T h hn

/-- A 16-bit counter that wrapped moves the page index on by what is left of the 32-bit
range. -/
theorem setSide_wrapped (x : ℕ) (hc : i.cntType = .u16) (hwrap : 2 ^ 16 ≤ s.idx + n) :
    qedChainSetSide i ((nextSide i)^[n] s) s.idx x =
      { s with
        elem := x
        pageIdx := (s.pageIdx + (2 ^ 32 - (2 ^ 32 - 2 ^ 16) / i.elemPerPage)) % i.pageCnt } := by
  obtain ⟨R, hm, he, hsize, -⟩ := T
  rw [hc] at hsize
  have hE := Nat.two_pow_pos e
  have hN := R.pageCnt_pos
  -- `K` pages of slots in 16 bits, `65536 * K` in 32 bits
  obtain ⟨K, hK⟩ : ∃ K, 2 ^ 16 = 2 ^ e * K := ⟨2 ^ (16 - e), by rw [← Nat.pow_add]; congr 1; omega⟩
  have hM : 2 ^ (32 - e) = 65536 * K := by
    refine Nat.eq_of_mul_eq_mul_left hE ?_
    rw [← Nat.pow_add, Nat.add_sub_cancel' (by omega), Nat.mul_left_comm, ← hK]
    rfl
  have hNK : i.pageCnt ≤ K := Nat.le_of_mul_le_mul_left (by rw [← hK]; exact hsize) hE
  have hK' : K ≤ 2 ^ 16 := by
    rw [hK]
    exact Nat.le_mul_of_pos_left K hE
  have hD : (2 ^ 32 - 2 ^ 16) / i.elemPerPage = 65535 * K := by
    rw [R.perPage, show 2 ^ 32 - 2 ^ 16 = 65535 * 2 ^ 16 by decide, hK, Nat.mul_left_comm,
      Nat.mul_div_cancel_left _ hE]
  have hidx : s.idx < 2 ^ 16 := by
    have := h.idx
    rwa [hc] at this
  have hcap : i.capacity ≤ 2 ^ 16 := by
    rw [R.capacity_eq, usable_eq R.toPow2 (by simp [hm])]
    exact (mod_le _ _).trans hsize
  have hadv := opened_sub_le (s := s) R hm hn
  have hold : opened (2 ^ e) s.idx ≤ K := by
    have := opened_mono (2 ^ e) (show s.idx ≤ 0 + 2 ^ e * K by omega)
    rwa [opened_add_mul hE, opened_zero hE, zero_add] at this
  have hmono := opened_mono (2 ^ e) (Nat.le_add_right s.idx n)
  have hcur : opened (2 ^ e) (i.wrap (s.idx + n)) + K = opened (2 ^ e) (s.idx + n) := by
    rw [← opened_add_mul hE, ← hK, wrap, hc]
    change opened (2 ^ e) ((s.idx + n) % 2 ^ 16 + 2 ^ 16) = _
    rw [mod_eq_sub_mod hwrap, mod_eq_of_lt (by omega), Nat.sub_add_cancel hwrap]
  rw [setSide_eq R hm h, hD]
  congr 1
  rcases Nat.lt_or_ge (opened (2 ^ e) (i.wrap (s.idx + n))) (opened (2 ^ e) s.idx) with hlt | hge
  · rw [sub_of_lt hlt (by rw [hM]; omega), hM,
      show opened (2 ^ e) (i.wrap (s.idx + n)) + 65536 * K - opened (2 ^ e) s.idx =
        opened (2 ^ e) (s.idx + n) - opened (2 ^ e) s.idx + 65535 * K by omega,
      page_back_wrapped h.page hadv (by omega) (by omega)]
  · -- a whole turn of the pages: the indices are on one page again
    have hfull : i.pageCnt = K := by omega
    have hsub : Word.sub (32 - e) (opened (2 ^ e) (i.wrap (s.idx + n))) (opened (2 ^ e) s.idx) =
        0 := by
      rw [sub_of_le hge, show opened (2 ^ e) (i.wrap (s.idx + n)) - opened (2 ^ e) s.idx = 0
        by omega, zero_mod]
    have hadv' : opened (2 ^ e) (s.idx + n) - opened (2 ^ e) s.idx = i.pageCnt := by omega
    have hdvd : i.pageCnt ∣ 2 ^ 32 - 65535 * K := by
      rw [hfull]
      refine Nat.dvd_sub ⟨65536 * 2 ^ e, ?_⟩ (Nat.dvd_mul_left K 65535)
      rw [Nat.mul_comm, Nat.mul_assoc, ← hK]
      rfl
    have hback := page_back h.page (Nat.zero_le i.pageCnt) (R.pageCnt_lt hm)
    rw [add_zero] at hback
    rw [hsub, hadv', add_mod_right, hback, (add_mod_eq_iff h.page).2 hdvd]

/-- **A side goes back by `n` elements** exactly when `CanRollBack` says so. -/
theorem setSide_iff (x : ℕ) :
    qedChainSetSide i ((nextSide i)^[n] s) s.idx x = { s with elem := x } ↔
      i.CanRollBack s.idx n := by
  have ⟨R, hm, he, hsize, hsize'⟩ := T
  have hE := Nat.two_pow_pos e
  have hM : 2 ^ 32 = 2 ^ e * 2 ^ (32 - e) := by
    rw [← pow_add, Nat.add_sub_cancel' (by omega)]
  have hadv := opened_sub_le (s := s) R hm hn
  have hmono := opened_mono (2 ^ e) (le_add_right s.idx n)
  cases hc : i.cntType with
  | u16 =>
    rw [hc] at hsize
    by_cases hlt : s.idx + n < 2 ^ 16
    · refine iff_of_true (setSide_of_sub_eq R hm h hn x ?_) (.inr (.inl hlt))
      have hwrap : i.wrap (s.idx + n) = s.idx + n := by
        rw [wrap, hc]
        exact mod_eq_of_lt hlt
      have hNM : i.pageCnt < 2 ^ (32 - e) := by
        refine Nat.lt_of_mul_lt_mul_left (a := 2 ^ e) ?_
        rw [← hM]
        exact hsize.trans_lt (by decide)
      rw [hwrap, sub_of_le hmono, mod_eq_of_lt (by omega)]
    · rw [setSide_wrapped T h hn x hc (by omega)]
      simp only [CanRollBack, hc, hlt, false_or, reduceCtorEq, ChainSide.mk.injEq,
        true_and, add_mod_eq_iff h.page]
  | u32 =>
    refine iff_of_true (setSide_of_sub_eq R hm h hn x ?_) (.inl hc)
    have hNM : i.pageCnt < 2 ^ (32 - e) := by
      refine Nat.lt_of_mul_lt_mul_left (a := 2 ^ e) ?_
      rw [← hM]
      exact hsize' hc
    -- a wrap of the index is a wrap of the pages in 32 bits
    refine sub_unique (by omega) ?_
    rw [Nat.sub_add_cancel hmono]
    conv_lhs => rw [← mod_add_div (s.idx + n) (2 ^ 32), hM, mul_assoc,
      opened_add_mul hE, add_mul_mod_self_left, ← hM]
    rw [wrap, hc]
    rfl

theorem setSide_self_iff :
    qedChainSetSide i ((nextSide i)^[n] s) s.idx s.elem = s ↔ i.CanRollBack s.idx n :=
  setSide_iff T h hn s.elem

end RollBack

/-- What `qed_chain_alloc` says about a chain with a page table. -/
theorem pbl_of_alloc {env : DmaEnv} {p : ChainParams} {e : ℕ} (h : qedChainAlloc env p = .ok c)
    (hd : env.Disjoint p.pageSize p.pageCnt) (hm : p.mode = .pbl) (hes : p.elemSize < 2 ^ 8)
    (he : e < 16) (hpow : elemsPerPage p.pageSize p.elemSize = 2 ^ e) :
    PblRing c env.addr e := by
  obtain ⟨hs, -, -⟩ := linked_of_alloc (pageSize_pos hpow) hd h
  obtain ⟨-, -, hsan, -⟩ := alloc_ok h
  have hmod := mod_eq_of_lt hes
  have hU : 0 < c.usablePerPage := by
    rw [hs]
    change 0 < usableElemsPerPage (p.elemSize % 2 ^ 8) p.pageSize p.mode % 2 ^ 16
    rw [hm, hmod, usable_eq_sub .pbl he hpow (zero_le _)]
    exact Nat.two_pow_pos e
  have hcnt : c.cntType = p.cntType := by rw [hs]; rfl
  have hpages : c.pageCnt = p.pageCnt := by rw [hs]; rfl
  have hsize := sanityCheck_le hsan
  rw [hpow, ← hcnt, ← hpages] at hsize
  exact ⟨ring_of_alloc h hd he (by rw [hmod]; exact hpow) hU, by rw [hs]; exact hm, he, hsize.1,
    hsize.2⟩

/-- **Rolling back a chain with a page table.** In every state of an admitted chain, reached by
any calls, `qed_chain_set_prod` takes `n` produced elements back, and `qed_chain_set_cons` `n`
consumed ones, exactly when `CanRollBack` holds of the index before them. -/
theorem rollBack_iff {env : DmaEnv} {p : ChainParams} {c : Chain} {e : ℕ}
    (h : qedChainAlloc env p = .ok c) (hd : env.Disjoint p.pageSize p.pageCnt)
    (hm : p.mode = .pbl) (hes : p.elemSize < 2 ^ 8) (he : e < 16)
    (hpow : elemsPerPage p.pageSize p.elemSize = 2 ^ e) (calls : List ChainCall) (n : ℕ)
    (hn : n < c.capacity) :
    let S := chainCalls c calls
    (qedChainSetProd (produceN n S) S.prod.idx S.prod.elem = S ↔ c.CanRollBack S.prod.idx n) ∧
      (qedChainSetCons (consumeN n S) S.cons.idx S.cons.elem = S ↔ c.CanRollBack S.cons.idx n) := by
  intro S
  have T := pbl_of_alloc h hd hm hes he hpow
  obtain ⟨hi, hp, hc⟩ := sideOk_calls T.ring T.mode calls
  rw [← hi] at T hp hc hn ⊢
  constructor
  · rw [← setSide_self_iff T hp hn, produceN_eq]
    exact ⟨fun h => congrArg Chain.prod h, fun h => by rw [qedChainSetProd, h]⟩
  · rw [← setSide_self_iff T hc hn, consumeN_eq]
    exact ⟨fun h => congrArg Chain.cons h, fun h => by rw [qedChainSetCons, h]⟩

/-- `pages` pages of 256 elements of 16 bytes, with 16-bit counters: a ring of transmit buffer
descriptors. -/
def txBdParams (pages : ℕ) : ChainParams :=
  { intendedUse := .toConsumeProduce, mode := .pbl, cntType := .u16, numElems := 256 * pages,
    elemSize := 16, pageSize := QED_CHAIN_PAGE_SIZE, extPbl := none }

/-- With four pages the producer always goes back, also over a wrap of its counter. -/
theorem rollBack_four_pages :
    ∃ c, qedChainAlloc (.backToBack 0x10000 QED_CHAIN_PAGE_SIZE) (txBdParams 4) = .ok c ∧
      let S := chainCalls c [.produce, .consume]
      qedChainSetProd (produceN 300 S) S.prod.idx S.prod.elem = S := by
  have hc : qedChainAlloc (.backToBack 0x10000 QED_CHAIN_PAGE_SIZE) (txBdParams 4) = .ok _ := rfl
  refine ⟨_, hc, ?_⟩
  exact ((rollBack_iff (e := 8) hc (DmaEnv.backToBack_disjoint _ _ _) rfl (by decide) (by decide)
    (by decide) [.produce, .consume] 300 (by decide +kernel)).1).2 (.inr (.inr (by decide +kernel)))

/-- With three pages it does not: 300 elements over the wrap are taken back to the wrong page. -/
theorem rollBack_three_pages :
    ¬ ∀ (env : DmaEnv) (p : ChainParams) (c : Chain) (e : ℕ), qedChainAlloc env p = .ok c →
      env.Disjoint p.pageSize p.pageCnt → p.mode = .pbl → p.elemSize < 2 ^ 8 → e < 16 →
      elemsPerPage p.pageSize p.elemSize = 2 ^ e → ∀ (calls : List ChainCall) (n : ℕ),
      n < c.capacity →
        (qedChainSetProd (produceN n (chainCalls c calls)) (chainCalls c calls).prod.idx
          (chainCalls c calls).prod.elem).prod = (chainCalls c calls).prod := by
  intro hall
  obtain ⟨c, hc⟩ : ∃ c, qedChainAlloc (.backToBack 0x10000 QED_CHAIN_PAGE_SIZE) (txBdParams 3) =
    .ok c := ⟨_, rfl⟩
  have hd := DmaEnv.backToBack_disjoint 0x10000 QED_CHAIN_PAGE_SIZE (txBdParams 3).pageCnt
  have hpow : elemsPerPage (txBdParams 3).pageSize (txBdParams 3).elemSize = 2 ^ 8 := by decide
  obtain ⟨hs, -, -⟩ := linked_of_alloc (pageSize_pos hpow) hd hc
  have T := pbl_of_alloc hc hd rfl (by decide) (by decide) hpow
  have hn : 300 < c.capacity := by
    rw [hs]
    decide +kernel
  have hidx := chainCalls_produce_idx T.ring T.mode (by rw [hs]; decide) 65280
  have hback := hall _ _ c 8 hc hd rfl (by decide) (by decide) hpow
    (replicate 65280 .produce) 300 hn
  obtain ⟨hi, hp, -⟩ := sideOk_calls T.ring T.mode (replicate 65280 .produce)
  rw [produceN_eq, hi] at hback
  have hcan := (setSide_self_iff T hp hn).1 hback
  rw [hidx, hs] at hcan
  revert hcan
  decide +kernel

end FastLinQ.Qed
