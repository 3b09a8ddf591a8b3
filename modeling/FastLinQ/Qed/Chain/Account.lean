import FastLinQ.Foundations.Run
import FastLinQ.Qed.Chain.Index

/-!
# Free-space accounting

`qed_chain_get_elem_left` rebuilds the number of elements in use from the two cyclic indices. On
a chain without next pointers that is their distance. On a next-pointer chain the indices count
the unusable slots of the pages that were left as well, and the correction takes off one slot for
every page between them, whatever `elem_unusable` is.

A run mixes `qed_chain_produce`, `qed_chain_consume` and `qed_chain_return_produced`. The first
two skip the end of a page when they leave it, the third as soon as it is reached, so the
consumer's slot depends on which call came last: `ChainShape.consSlots`.
-/

namespace FastLinQ.Qed

open Paged Run Nat Word ChainShape List

inductive AccountOp
  | produce
  | consume
  | returnProduced
  deriving DecidableEq, Repr

/-- A chain, the number of elements on each side, and whether the consumer's last step was
`qed_chain_return_produced`. -/
structure AccountRun where
  chain : Chain
  produced : ℕ
  consumed : ℕ
  returned : Bool

def AccountRun.step (r : AccountRun) : AccountOp → AccountRun
  | .produce =>
    { r with chain := (qedChainProduce r.chain).2, produced := r.produced + 1 }
  | .consume =>
    { r with chain := (qedChainConsume r.chain).2, consumed := r.consumed + 1, returned := false }
  | .returnProduced =>
    { r with chain := qedChainReturnProduced r.chain, consumed := r.consumed + 1, returned := true }

/-- A chain after `qed_chain_reset`; one that is used to consume starts full. -/
def AccountRun.start (c : Chain) : AccountRun := ⟨qedChainReset c, c.initial, 0, false⟩

def accountRun (c : Chain) (ops : List AccountOp) : AccountRun :=
  ops.foldl AccountRun.step (AccountRun.start c)

/-- The getter for the width of the chain's counters. -/
def elemLeft (c : Chain) : ℕ :=
  match c.cntType with
  | .u16 => qedChainGetElemLeft c
  | .u32 => qedChainGetElemLeftU32 c

theorem elemLeft_eq (c : Chain) : elemLeft c = qedChainElemLeft c.cntType.bits c := by
  unfold elemLeft
  cases c.cntType <;> rfl

/-- The consumer's slot after `k` elements: if the last of them was returned and ended a page,
the unusable slots are counted already. -/
def ChainShape.consSlots (i : ChainShape) (k : ℕ) (returned : Bool) : ℕ :=
  if i.mode = .nextPtr ∧ returned ∧ i.usablePerPage ∣ k then
    i.elemPerPage * (k / i.usablePerPage)
  else i.slots k

/-- The consumer does not change from consuming to returning at the end of a page of a
next-pointer chain. -/
def AccountRun.Unmixed (r : AccountRun) (op : AccountOp) : Prop :=
  op = .returnProduced → r.chain.mode = .nextPtr → r.chain.usablePerPage ∣ r.consumed →
    r.consumed = 0 ∨ r.returned
  deriving Decidable

/-! ## Slots -/

section Slots

variable {i : ChainShape} {e : ℕ} (P : i.Pow2 e) (hm : i.mode = .nextPtr)

include P hm

theorem slots_div (k : ℕ) : i.slots k / 2 ^ e = lastPage i.usablePerPage k := by
  have hlt := usable_lt P hm
  have hle := fill_le P.usable_pos k
  rw [slots_nextPtr hm, P.perPage, Nat.mul_add_div (Nat.two_pow_pos e),
    div_eq_of_lt (by omega), add_zero]

/-- A slot counts the elements and the unusable slots of the pages before it. -/
theorem slots_eq_add (k : ℕ) : i.slots k = k + i.elemUnusable * (i.slots k / 2 ^ e) := by
  have hk := lastPage_mul_add_fill i.usablePerPage k
  rw [slots_div P hm, slots_nextPtr hm, P.perPage, ← P.usable_add, add_mul]
  omega

omit hm in
/-- The slot behind the end of a page. -/
theorem perPage_mul_div {k : ℕ} (hk : i.usablePerPage ∣ k) :
    i.elemPerPage * (k / i.usablePerPage) = k + i.elemUnusable * (k / i.usablePerPage) := by
  conv_lhs => rw [P.perPage, ← P.usable_add, Nat.add_mul, Nat.mul_div_cancel' hk]

theorem consSlots_eq_add (k : ℕ) (returned : Bool) :
    i.consSlots k returned = k + i.elemUnusable * (i.consSlots k returned / 2 ^ e) := by
  unfold consSlots
  split
  · rename_i h
    have hdiv : i.elemPerPage * (k / i.usablePerPage) / 2 ^ e = k / i.usablePerPage := by
      rw [P.perPage, Nat.mul_div_cancel_left _ (Nat.two_pow_pos e)]
    rw [hdiv]
    exact perPage_mul_div P h.2.2
  · exact slots_eq_add P hm k

/-- At the end of a page, the slot of a consumer that has skipped. -/
theorem slots_add_unusable {k : ℕ} (hk : i.usablePerPage ∣ k) (hpos : 0 < k) :
    i.slots k + i.elemUnusable = i.elemPerPage * (k / i.usablePerPage) := by
  have hfill := (fill_eq_iff P.usable_pos).2 ⟨hk, hpos⟩
  rw [slots_nextPtr hm, hfill, (div_mod_of_fill_eq P.usable_pos hfill).1, mul_succ, P.perPage,
    ← P.usable_add, add_assoc]

/-- The slot after the next element, from a consumer that is not behind the end of a page. -/
theorem slots_succ_of_consSlots {k : ℕ} {returned : Bool}
    (h : i.usablePerPage ∣ k → k = 0 ∨ returned) :
    i.slots (k + 1) = i.consSlots k returned + 1 := by
  unfold consSlots
  by_cases hk : i.usablePerPage ∣ k
  · rcases Nat.eq_zero_or_pos k with rfl | hpos
    · rw [slots_succ P hm, if_neg]
      · simp
      · rw [fill_zero]
        exact P.usable_pos.ne
    · have hfill := (fill_eq_iff P.usable_pos).2 ⟨hk, hpos⟩
      rw [slots_succ P hm, if_pos hfill, if_pos ⟨hm, (h hk).resolve_left hpos.ne', hk⟩,
        slots_add_unusable P hm hk hpos]
  · rw [slots_succ P hm, if_neg, if_neg]
    · exact fun hc => hk hc.2.2
    · exact fun hc => hk ((fill_eq_iff P.usable_pos).1 hc).1

theorem slots_mono {j k : ℕ} (h : j ≤ k) : i.slots j ≤ i.slots k := by
  rw [slots_eq_add P hm j, slots_eq_add P hm k, slots_div P hm, slots_div P hm]
  exact Nat.add_le_add h (mul_le_mul_left _ (lastPage_mono _ h))

theorem slots_le_consSlots (k : ℕ) (returned : Bool) : i.slots k ≤ i.consSlots k returned := by
  unfold consSlots
  split
  · rename_i h
    rw [slots_eq_add P hm, slots_div P hm, perPage_mul_div P h.2.2]
    exact Nat.add_le_add_left (Nat.mul_le_mul_left _ (Nat.div_le_div_right (by omega))) _
  · exact le_rfl

/-- A consumer is ahead of the producer only if it has skipped the end of a page that the
producer has filled and not left. -/
theorem eq_of_slots_lt {p k : ℕ} {returned : Bool} (hkp : k ≤ p)
    (h : i.slots p < i.consSlots k returned) :
    p = k ∧ i.usablePerPage ∣ k ∧ 0 < k ∧ i.consSlots k returned = i.slots k + i.elemUnusable := by
  by_cases hend : i.mode = .nextPtr ∧ returned ∧ i.usablePerPage ∣ k
  · rw [consSlots, if_pos hend] at h ⊢
    have hpos : 0 < k := by
      rcases Nat.eq_zero_or_pos k with rfl | hpos
      · simp at h
      · exact hpos
    refine ⟨?_, hend.2.2, hpos, (slots_add_unusable P hm hend.2.2 hpos).symm⟩
    rcases hkp.eq_or_lt with rfl | hlt
    · rfl
    · have := slots_mono P hm (succ_le_of_lt hlt)
      rw [slots_succ_of_consSlots P hm (fun _ => .inr hend.2.1), consSlots, if_pos hend] at this
      omega
  · rw [consSlots, if_neg hend] at h
    have := slots_mono P hm hkp
    omega

end Slots

/-! ## The two indices along a run -/

structure AccountInv (i : ChainInfo) (r : AccountRun) : Prop where
  info : r.chain.toChainInfo = i
  prod : r.chain.prod.idx = i.idxAt r.produced
  cons : r.chain.cons.idx = i.wrap (i.consSlots r.consumed r.returned)

section Steps

variable {i : ChainInfo} {e : ℕ} (I : i.Indexed e)

include I

theorem nextElem_consSlots {s : ChainSide} {k : ℕ} {returned : Bool}
    (h : s.idx = i.wrap (i.consSlots k returned)) :
    (qedChainNextElem i s).2.idx = i.wrap (i.consSlots (k + 1) false) := by
  have hlazy : i.consSlots (k + 1) false = i.slots (k + 1) := by simp [consSlots]
  rw [hlazy]
  by_cases hend : i.mode = .nextPtr ∧ returned ∧ i.usablePerPage ∣ k
  · -- the end of the page was skipped before: the page test fails and the index just counts
    obtain ⟨hm, hr, hk⟩ := hend
    have P := I.pow2 hm
    have hlt := usable_lt P hm
    have hU := P.usable_pos
    rw [consSlots, if_pos ⟨hm, hr, hk⟩] at h
    have hmod : s.idx % 2 ^ e = 0 := by
      rw [h, wrap_mod P, P.perPage, mul_mod_right]
    rw [nextElem_idx_of_eq hm, if_neg, slots_succ_of_consSlots P hm (fun _ => .inr hr),
      consSlots, if_pos ⟨hm, hr, hk⟩, h, i.wrap_wrap_add]
    rw [fires_iff P, mod_eq_of_lt hlt]
    omega
  · rw [consSlots, if_neg hend] at h
    exact nextElem_idx I h

/-- `qed_chain_return_produced` counts an element and skips the end of a page. -/
theorem returnProduced_consSlots {s : ChainSide} {k : ℕ} {returned : Bool}
    (h : s.idx = i.wrap (i.consSlots k returned))
    (hmix : i.mode = .nextPtr → i.usablePerPage ∣ k → k = 0 ∨ returned) :
    (testAndSkip i { s with idx := i.wrap (s.idx + 1) }).idx =
      i.wrap (i.consSlots (k + 1) true) := by
  rw [h, i.wrap_wrap_add]
  by_cases hm : i.mode = .nextPtr
  · have P := I.pow2 hm
    have hlt := usable_lt P hm
    have hle := fill_le P.usable_pos (k + 1)
    rw [← slots_succ_of_consSlots P hm (hmix hm), testAndSkip_idx P hm]
    have hfill : i.wrap (i.slots (k + 1)) % 2 ^ e = i.usablePerPage % 2 ^ e ↔
        i.usablePerPage ∣ k + 1 := by
      rw [show i.wrap (i.slots (k + 1)) = i.idxAt (k + 1) from rfl, idxAt_mod P,
        mod_eq_of_lt hlt, mod_eq_of_lt (by omega), fill_eq_iff P.usable_pos]
      exact and_iff_left k.succ_pos
    simp only [hfill, consSlots, hm, true_and]
    split
    · rename_i hk
      rw [i.wrap_wrap_add, slots_add_unusable P hm hk k.succ_pos]
    · rfl
  · rw [testAndSkip_of_ne (I.skips_none hm) (i.wrap_wrap _)]
    simp [consSlots, hm, false_and, slots_of_ne hm]

theorem AccountInv.step {r : AccountRun} (h : AccountInv i r) {op : AccountOp}
    (hmix : r.Unmixed op) : AccountInv i (r.step op) := by
  obtain ⟨rfl, hp, hc⟩ := h
  cases op with
  | produce => exact ⟨rfl, nextElem_idx I hp, hc⟩
  | consume => exact ⟨rfl, hp, nextElem_consSlots I hc⟩
  | returnProduced => exact ⟨rfl, hp, returnProduced_consSlots I hc (hmix rfl)⟩

end Steps

/-- **The indices along a run.** -/
theorem accountInv_run {c : Chain} {e : ℕ} (I : c.Indexed e) {ops : List AccountOp}
    (h : Meets AccountRun.Unmixed AccountRun.step (AccountRun.start c) ops) :
    AccountInv c (accountRun c ops) := by
  refine Meets.invariant (fun r op hr hop => hr.step I hop) ⟨?_, ?_, ?_⟩ h
  · exact qedChainReset_info c
  · rw [AccountRun.start, qedChainReset_prod I]
  · rw [AccountRun.start, qedChainReset_cons]
    simp [ChainInfo.resetSide, consSlots, wrap]

/-! ## The getter -/

theorem elemLeft_of_ne {c : Chain} {p k : ℕ} (hm : c.mode ≠ .nextPtr)
    (hp : c.prod.idx = c.wrap p) (hc : c.cons.idx = c.wrap k) (hle : k ≤ p)
    (hcap : p ≤ k + c.capacity) :
    elemLeft c = (c.capacity - (p - k)) % 2 ^ c.cntType.bits := by
  have hmod := ahead_sub_mod (w := c.cntType.bits) hle
  rw [← sub_of_le (by omega), ← sub_mod_right, ← hmod, elemLeft_eq]
  unfold qedChainElemLeft
  rw [hp, hc]
  cases hmode : c.mode with
  | nextPtr => exact absurd hmode hm
  | single => rfl
  | pbl => rfl

section Getter

variable {c : Chain} {e x y : ℕ} (hm : c.mode = .nextPtr) (hp : c.prod.idx = c.wrap x)
  (hc : c.cons.idx = c.wrap y)

include hm hp hc

theorem elemLeft_nextPtr :
    elemLeft c = Word.sub c.cntType.bits c.capacity (Word.sub c.cntType.bits
      (ahead c.cntType.bits x y - y % 2 ^ c.cntType.bits)
      (ahead c.cntType.bits x y / c.elemPerPage - y % 2 ^ c.cntType.bits / c.elemPerPage)) := by
  rw [elemLeft_eq]
  unfold qedChainElemLeft
  simp only [hm, hp, hc, sub_mod_left]
  rfl

variable (P : c.Pow2 e)

include P

/-- The getter takes one slot off for every page between the two slots. -/
theorem elemLeft_nextPtr_of_le (hle : y ≤ x) (hlt : x < y + 2 ^ c.cntType.bits) :
    elemLeft c = Word.sub c.cntType.bits c.capacity (x - y - (x / 2 ^ e - y / 2 ^ e)) := by
  have hdiv : x / 2 ^ e - y / 2 ^ e ≤ x - y := by
    obtain ⟨d, rfl⟩ := Nat.exists_eq_add_of_le hle
    have h : (y + d) / 2 ^ e ≤ (y + 2 ^ e * d) / 2 ^ e :=
      Nat.div_le_div_right (Nat.add_le_add_left (Nat.le_mul_of_pos_left d (Nat.two_pow_pos e)) y)
    rw [add_mul_div_left _ _ (Nat.two_pow_pos e)] at h
    omega
  rw [elemLeft_nextPtr hm hp hc, P.perPage, ahead_sub hle hlt,
    ahead_div_sub P.bits_le hle hlt, sub_of_le_of_lt hdiv (by omega)]

end Getter

/-- When the getter counts right: on a next-pointer chain the consumer must not have skipped ahead
of the producer, the slots must be less than a turn of the counter apart, and there must be one
unusable slot in a page unless both sides are on one page. -/
def ChainShape.Accounted (i : ChainShape) (p k : ℕ) (returned : Bool) : Prop :=
  (i.mode = .nextPtr → i.consSlots k returned ≤ i.slots p ∧
      i.slots p < i.consSlots k returned + 2 ^ i.cntType.bits ∧
      (i.elemUnusable = 1 ∨ i.slots p / i.elemPerPage = i.consSlots k returned / i.elemPerPage)) ∧
    (i.mode ≠ .nextPtr → i.capacity - (p - k) < 2 ^ i.cntType.bits)
  deriving Decidable

section NextPtr

variable {c : Chain} {e p k : ℕ} {returned : Bool} (P : c.Pow2 e) (hm : c.mode = .nextPtr)
  (hp : c.prod.idx = c.idxAt p) (hc : c.cons.idx = c.wrap (c.consSlots k returned))
  (hkp : k ≤ p) (hcap : p ≤ k + c.capacity) (hW : c.capacity < 2 ^ c.cntType.bits)

include P hm hp hc

include hkp hcap hW in
/-- The getter where the slots are less than a turn apart: what it counts too much is one less
than the unusable slots, for every page in between. -/
theorem elemLeft_iff_of_le (hle : c.consSlots k returned ≤ c.slots p)
    (hlt : c.slots p < c.consSlots k returned + 2 ^ c.cntType.bits) :
    elemLeft c = c.capacity - (p - k) ↔
      c.elemUnusable = 1 ∨ c.slots p / 2 ^ e = c.consSlots k returned / 2 ^ e := by
  rw [elemLeft_nextPtr_of_le hm hp hc P hle hlt]
  have hx := slots_eq_add P hm p
  have hy := consSlots_eq_add P hm k returned
  obtain ⟨v, hv⟩ := Nat.exists_eq_add_of_le (P.unusable_pos hm)
  obtain ⟨d, hd⟩ := Nat.exists_eq_add_of_le (Nat.div_le_div_right (c := 2 ^ e) hle)
  rw [hd, mul_add] at hx
  have hud : c.elemUnusable * d = d + v * d := by rw [hv]; ring
  have hval : c.slots p - c.consSlots k returned -
      (c.slots p / 2 ^ e - c.consSlots k returned / 2 ^ e) = p - k + v * d := by omega
  have hzero : (c.elemUnusable = 1 ∨ c.slots p / 2 ^ e = c.consSlots k returned / 2 ^ e) ↔
      v * d = 0 := by
    rw [mul_eq_zero]
    omega
  rw [hval, hzero]
  rcases lt_or_ge c.capacity (p - k + v * d) with h | h
  · rw [sub_of_lt h (by omega)]
    omega
  · rw [sub_of_le_of_lt h hW]
    omega

omit P in
include hcap hW in
/-- A whole turn of slots apart, a full chain looks empty. -/
theorem elemLeft_ne_of_turn (hkp : k < p)
    (h : c.slots p = c.consSlots k returned + 2 ^ c.cntType.bits) :
    elemLeft c ≠ c.capacity - (p - k) := by
  have hahead : ahead c.cntType.bits (c.slots p) (c.consSlots k returned) =
      c.consSlots k returned % 2 ^ c.cntType.bits := by
    rw [h, ahead_add_two_pow, ahead, if_neg (lt_irrefl _)]
  rw [elemLeft_nextPtr hm hp hc, hahead, Nat.sub_self, Nat.sub_self, sub_of_le le_rfl,
    Nat.sub_self, zero_mod, sub_of_le_of_lt (zero_le _) hW]
  omega

include hkp hW in
/-- If the consumer has skipped ahead of the producer, an empty chain is counted as almost a
turn of the counter in use. -/
theorem elemLeft_ne_of_skipped (h : c.slots p < c.consSlots k returned) :
    elemLeft c ≠ c.capacity - (p - k) := by
  obtain ⟨rfl, hk, hpos, hcons⟩ := eq_of_slots_lt P hm hkp h
  have hu := P.unusable_pos hm
  have hUE := usable_lt P hm
  have hadd := P.usable_add
  obtain ⟨f, hf⟩ := Nat.exists_eq_add_of_le P.bits_le
  have hW' : 2 ^ c.cntType.bits = 2 ^ e * 2 ^ f := by rw [hf, pow_add]
  have hf1 : 1 ≤ 2 ^ f := Nat.one_le_two_pow
  have hUpos := P.usable_pos
  have hEW : 2 ^ e + 2 ^ f ≤ 2 ^ e * 2 ^ f + 1 := by
    obtain ⟨a, ha⟩ := Nat.exists_eq_add_of_le (show 1 ≤ 2 ^ e by omega)
    obtain ⟨b, hb⟩ := Nat.exists_eq_add_of_le hf1
    rw [ha, hb]
    have : (1 + a) * (1 + b) = 1 + a + b + a * b := by ring
    omega
  -- one turn later the producer is in order behind the consumer
  have hle : c.consSlots p returned ≤ c.slots p + 2 ^ c.cntType.bits := by omega
  have hlt : c.slots p + 2 ^ c.cntType.bits < c.consSlots p returned + 2 ^ c.cntType.bits := by
    omega
  have hdiv : (c.slots p + 2 ^ c.cntType.bits) / 2 ^ e = c.slots p / 2 ^ e + 2 ^ f := by
    rw [hW', add_mul_div_left _ _ (Nat.two_pow_pos e)]
  have hcdiv : c.consSlots p returned / 2 ^ e = c.slots p / 2 ^ e + 1 := by
    have hfill := (fill_eq_iff hUpos).2 ⟨hk, hpos⟩
    rw [hcons, slots_add_unusable P hm hk hpos, P.perPage,
      Nat.mul_div_cancel_left _ (Nat.two_pow_pos e), slots_div P hm,
      (div_mod_of_fill_eq hUpos hfill).1]
  have hp' : c.prod.idx = c.wrap (c.slots p + 2 ^ c.cntType.bits) := by
    rw [hp, idxAt, wrap, wrap, add_mod_right]
  rw [elemLeft_nextPtr_of_le hm hp' hc P hle hlt, hdiv, hcdiv]
  have hval : c.slots p + 2 ^ c.cntType.bits - c.consSlots p returned -
      (c.slots p / 2 ^ e + 2 ^ f - (c.slots p / 2 ^ e + 1)) =
        2 ^ c.cntType.bits - (c.elemUnusable + 2 ^ f - 1) := by omega
  rw [hval]
  rcases lt_or_ge c.capacity (2 ^ c.cntType.bits - (c.elemUnusable + 2 ^ f - 1)) with h' | h'
  · rw [sub_of_lt h' (by omega)]
    omega
  · rw [sub_of_le_of_lt h' hW]
    omega

include hkp hcap in
/-- **The getter on a next-pointer chain** whose slots fit the counter. -/
theorem elemLeft_nextPtr_iff (hsize : 2 ^ e * c.pageCnt ≤ 2 ^ c.cntType.bits) :
    elemLeft c = c.capacity - (p - k) ↔ c.Accounted p k returned := by
  have hU := P.usable_pos
  have hadd := P.usable_add
  have hu := P.unusable_pos hm
  have hcapU : c.capacity ≤ c.usablePerPage * c.pageCnt := by
    rw [P.capacity_eq]
    exact mod_le _ _
  have hEN : c.usablePerPage * c.pageCnt + c.elemUnusable * c.pageCnt = 2 ^ e * c.pageCnt := by
    rw [← add_mul, hadd]
  have hW : c.capacity < 2 ^ c.cntType.bits := by
    rcases Nat.eq_zero_or_pos c.pageCnt with h0 | h0
    · rw [h0, mul_zero] at hcapU
      have := Nat.two_pow_pos c.cntType.bits
      omega
    · have := mul_pos hu h0
      omega
  simp only [Accounted, hm, P.perPage, forall_const, ne_eq, not_true_eq_false,
    false_imp_iff, and_true]
  rcases lt_or_ge (c.slots p) (c.consSlots k returned) with hlt | hle
  · exact iff_of_false (elemLeft_ne_of_skipped P hm hp hc hkp hW hlt) fun h => by omega
  · rcases lt_or_ge (c.slots p) (c.consSlots k returned + 2 ^ c.cntType.bits) with hlt | hge
    · rw [elemLeft_iff_of_le P hm hp hc hkp hcap hW hle hlt]
      exact ⟨fun h => ⟨hle, hlt, h⟩, fun h => h.2.2⟩
    · -- the slots of a full chain are at most the size of the chain apart
      have hpage : c.slots p / 2 ^ e ≤ c.consSlots k returned / 2 ^ e + c.pageCnt := by
        calc c.slots p / 2 ^ e = lastPage c.usablePerPage p := slots_div P hm p
          _ ≤ lastPage c.usablePerPage (k + c.usablePerPage * c.pageCnt) :=
            lastPage_mono _ (by omega)
          _ ≤ lastPage c.usablePerPage k + c.pageCnt := lastPage_add_mul_le hU _ _
          _ ≤ c.consSlots k returned / 2 ^ e + c.pageCnt := by
            rw [← slots_div P hm]
            exact Nat.add_le_add_right (Nat.div_le_div_right (slots_le_consSlots P hm k _)) _
      have hmul := mul_le_mul_left c.elemUnusable hpage
      rw [mul_add] at hmul
      have hx := slots_eq_add P hm p
      have hy := consSlots_eq_add P hm k returned
      have hkp' : k < p := by
        rcases hkp.eq_or_lt with rfl | h
        · have := slots_le_consSlots P hm k returned
          have := Nat.two_pow_pos c.cntType.bits
          omega
        · exact h
      exact iff_of_false (elemLeft_ne_of_turn hm hp hc hcap hW hkp' (by omega)) fun h => by omega

end NextPtr

/-- The number of elements in use is between zero and the capacity after the call. -/
def AccountRun.InRange (r : AccountRun) (op : AccountOp) : Prop :=
  (r.step op).consumed ≤ (r.step op).produced ∧
    (r.step op).produced ≤ (r.step op).consumed + r.chain.capacity
  deriving Decidable

/-- **When the free space is right.** For every configuration that
`qed_chain_alloc_sanity_check` admits, on a next-pointer chain with a power of two of slots in a
page, and every run that does not change from consuming to returning at the end of a page: the
getter returns the capacity less the elements in use exactly in the states of
`ChainShape.Accounted`. -/
theorem elemLeft_run_iff {pageCnt elemSize pageSize e : ℕ} {use : ChainUseMode}
    {mode : ChainMode} {cnt : ChainCntType} {c : Chain}
    (hsan : qedChainAllocSanityCheck cnt elemSize pageSize pageCnt = true)
    (hc : c.toChainShape = (qedChainInit pageCnt elemSize pageSize use mode cnt).toChainShape)
    (hpow : mode = .nextPtr → e < 16 ∧ elemsPerPage pageSize elemSize = 2 ^ e ∧
      unusableElemsPerPage elemSize mode < 2 ^ e) (ops : List AccountOp)
    (hmix : Meets AccountRun.Unmixed AccountRun.step (AccountRun.start c) ops) :
    let r := accountRun c ops
    r.consumed ≤ r.produced → r.produced ≤ r.consumed + c.capacity →
      (elemLeft r.chain = c.capacity - (r.produced - r.consumed) ↔
        c.Accounted r.produced r.consumed r.returned) := by
  intro r hkp hcap
  have hmode : c.mode = mode := by rw [hc]; rfl
  have hP : c.mode = .nextPtr → c.Pow2 e := fun hm => by
    obtain ⟨he, hpow, hlt⟩ := hpow (hmode ▸ hm)
    have hU := usable_eq_sub mode he hpow hlt.le
    rw [hc]
    refine pow2_of_init he hpow hlt.le ?_
    show 0 < usableElemsPerPage elemSize pageSize mode % 2 ^ 16
    omega
  have hzero : c.mode ≠ .nextPtr → c.elemUnusable = 0 := by
    rw [hc]
    cases mode with
    | nextPtr => exact fun hm => absurd rfl hm
    | single => exact fun _ => rfl
    | pbl => exact fun _ => rfl
  obtain ⟨hinfo, hprod, hcons⟩ := accountInv_run ⟨hP, hzero⟩ hmix
  have hshape := hinfo
  rw [← hshape] at hP hcap hprod hcons ⊢
  by_cases hm : r.chain.mode = .nextPtr
  · refine elemLeft_nextPtr_iff (hP hm) hm hprod hcons hkp hcap ?_
    obtain ⟨-, hE, -⟩ := hpow (by rw [← hmode, ← hshape]; exact hm)
    rw [← hE, hshape, hc]
    exact (sanityCheck_le hsan).1
  · have hlazy : r.chain.consSlots r.consumed r.returned = r.consumed := by
      simp [consSlots, hm, false_and, slots_of_ne hm]
    rw [idxAt, slots_of_ne hm] at hprod
    rw [hlazy] at hcons
    rw [elemLeft_of_ne hm hprod hcons hkp hcap, mod_eq_iff_lt (Nat.two_pow_pos _).ne']
    exact ⟨fun h => ⟨fun hc => absurd hc hm, fun _ => h⟩, fun h => h.2 hm⟩

/-- Two pages of 31 elements, the producer on the second of them: 29 elements are in use and 33
are left. -/
theorem elemLeft_two_pages :
    elemLeft (accountRun (qedChainInit 2 128 QED_CHAIN_PAGE_SIZE .toProduce .nextPtr .u16)
      (replicate 32 .produce ++ replicate 3 .consume)).chain = 33 := by
  have h := elemLeft_run_iff (e := 5)
    (show qedChainAllocSanityCheck .u16 128 QED_CHAIN_PAGE_SIZE 2 = true by decide)
    (show _ = (qedChainInit 2 128 QED_CHAIN_PAGE_SIZE .toProduce .nextPtr .u16).toChainShape
      from rfl) (by decide) (replicate 32 .produce ++ replicate 3 .consume)
    (by decide +kernel) (by decide +kernel) (by decide +kernel)
  exact h.2 (by decide +kernel)

/-- The receive ring, next-pointer pages of 8-byte buffer descriptors, has two unusable slots in
a page: with 511 descriptors produced the getter counts 512. -/
theorem elemLeft_short_on_rx_ring :
    ¬ ∀ (pageCnt elemSize pageSize : ℕ) (use : ChainUseMode) (mode : ChainMode)
      (cnt : ChainCntType) (ops : List AccountOp),
      qedChainAllocSanityCheck cnt elemSize pageSize pageCnt = true →
      let c := qedChainInit pageCnt elemSize pageSize use mode cnt
      Meets AccountRun.InRange AccountRun.step (AccountRun.start c) ops →
      elemLeft (accountRun c ops).chain =
        c.capacity - ((accountRun c ops).produced - (accountRun c ops).consumed) := by
  intro h
  have := h 2 8 QED_CHAIN_PAGE_SIZE .toConsumeProduce .nextPtr .u16 (replicate 511 .produce)
    (by decide) (by decide +kernel)
  revert this
  decide +kernel

end FastLinQ.Qed
