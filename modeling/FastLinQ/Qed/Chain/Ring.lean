import FastLinQ.Foundations.Paged
import FastLinQ.Qed.Chain.Alloc

/-!
# A chain is a ring

`ChainInfo.Ring` collects what the element operations rely on: the pages are linked
(`ChainInfo.Linked`), the number of elements in a page is a power of two, and the usable and
unusable elements fill the page. `ring_of_alloc` gets it from a successful `qed_chain_alloc`.

`SideAt i base s k` says that the side `s` has handed out `k` elements. The three counters are
each described by the cursor of `Foundations/Paged.lean`: the pointer is behind the last
element, the index agrees with the fill of the page modulo the page, the page index is the page
of the last element. The index is deliberately described modulo the page only: it overflows at
`2^16` or `2^32`, which the number of pages need not divide, and a chain that starts full starts
with a producer index that is not zero.
-/

namespace FastLinQ.Qed

open Paged Nat ChainInfo

/-- The address of element `k` of the ring: slot `k % usable` of page `k / usable % pageCnt`. -/
def ChainInfo.elemAddr (i : ChainInfo) (base : ℕ → ℕ) (k : ℕ) : ℕ :=
  base (k / i.usablePerPage % i.pageCnt) + k % i.usablePerPage * i.elemSize

/-- A page holds `2 ^ e` elements, of which the last `elemUnusable` cover the next pointer. -/
structure ChainShape.Pow2 (i : ChainShape) (e : ℕ) : Prop where
  bits_le : e ≤ i.cntType.bits
  perPage : i.elemPerPage = 2 ^ e
  mask : i.elemPerPageMask = 2 ^ e - 1
  nextMask : i.nextPageMask = i.usablePerPage % 2 ^ e
  usable_pos : 0 < i.usablePerPage
  usable_add : i.usablePerPage + i.elemUnusable = 2 ^ e
  unusable_pos : i.mode = .nextPtr → 0 < i.elemUnusable
  unusable_zero : i.mode ≠ .nextPtr → i.elemUnusable = 0
  capacity_eq : i.capacity = i.usablePerPage * i.pageCnt % 2 ^ 32

/-- A linked chain with `2 ^ e` elements in a page. -/
structure ChainInfo.Ring (i : ChainInfo) (base : ℕ → ℕ) (e : ℕ) : Prop extends
    i.Linked base, i.Pow2 e where
  pageCnt_le : i.mode = .pbl → i.pageCnt ≤ 2 ^ i.cntType.bits

/-- `k` elements have been handed out on this side. -/
structure SideAt (i : ChainInfo) (base : ℕ → ℕ) (s : ChainSide) (k : ℕ) : Prop where
  elem : s.elem = base (lastPage i.usablePerPage k % i.pageCnt) +
    fill i.usablePerPage k * i.elemSize
  idx : s.idx % i.elemPerPage = fill i.usablePerPage k % i.elemPerPage
  page : i.mode = .pbl →
    s.pageIdx = if k = 0 then i.pageCnt - 1 else lastPage i.usablePerPage k % i.pageCnt

section Pow2

variable {i : ChainShape} {e : ℕ} (P : i.Pow2 e)

include P

theorem usable_le : i.usablePerPage ≤ 2 ^ e := by
  have := P.usable_add
  omega

theorem usable_eq (hm : i.mode ≠ .nextPtr) : i.usablePerPage = 2 ^ e := by
  have := P.usable_add
  have := P.unusable_zero hm
  omega

theorem usable_lt (hm : i.mode = .nextPtr) : i.usablePerPage < 2 ^ e := by
  have := P.usable_add
  have := P.unusable_pos hm
  omega

theorem wrap_mod (x : ℕ) : i.wrap x % 2 ^ e = x % 2 ^ e := Word.mod_two_pow_mod P.bits_le

/-- The page test of `qed_chain_produce` compares the fill of the page, modulo the page. -/
theorem fires_iff (idx : ℕ) :
    idx &&& i.elemPerPageMask = i.nextPageMask ↔ idx % 2 ^ e = i.usablePerPage % 2 ^ e := by
  rw [P.mask, and_two_pow_sub_one_eq_mod, P.nextMask]

theorem fill_mod_ne {k : ℕ} (hk : 0 < k) (h : fill i.usablePerPage k < i.usablePerPage) :
    fill i.usablePerPage k % 2 ^ e ≠ i.usablePerPage % 2 ^ e := by
  have hpos := fill_pos (U := i.usablePerPage) hk
  have hle := usable_le P
  rw [mod_eq_of_lt (show fill i.usablePerPage k < 2 ^ e by omega)]
  rcases Nat.lt_or_ge i.usablePerPage (2 ^ e) with hlt | hge
  · rw [mod_eq_of_lt hlt]
    omega
  · have hz : i.usablePerPage % 2 ^ e = 0 := by
      rw [show i.usablePerPage = 2 ^ e by omega, mod_self]
    omega

end Pow2

section Step

variable {i : ChainInfo} {base : ℕ → ℕ} {e : ℕ} (R : i.Ring base e)

include R

/-- The page index moves cyclically, also when the number of pages is the whole range of the
counter. -/
theorem pageIdx_succ (hm : i.mode = .pbl) {q : ℕ} :
    (if i.wrap (q % i.pageCnt + 1) = i.pageCnt then 0 else i.wrap (q % i.pageCnt + 1)) =
      (q + 1) % i.pageCnt := by
  have hN := R.pageCnt_pos
  have hle := R.pageCnt_le hm
  have hlt := mod_lt q hN
  simp only [succ_mod hN, ChainShape.wrap]
  rcases Nat.lt_or_ge (q % i.pageCnt + 1) (2 ^ i.cntType.bits) with h | h
  · simp [mod_eq_of_lt h]
  · -- the counter overflows exactly when it would have been reset
    have hfull : q % i.pageCnt + 1 = 2 ^ i.cntType.bits := by omega
    have hz : (q % i.pageCnt + 1) % 2 ^ i.cntType.bits = 0 := by rw [hfull, mod_self]
    simp only [hz]
    rw [if_neg (by omega), if_pos (by omega)]

variable {s : ChainSide}

/-- Leaving the page of the last element: the pointer moves to page `q + 1`, the index to its
start. -/
theorem advancePage_spec {q : ℕ}
    (hnext : i.mode = .nextPtr → s.elem = base (q % i.pageCnt) + i.usablePerPage * i.elemSize)
    (hidx : s.idx % 2 ^ e = i.usablePerPage % 2 ^ e)
    (hpage : i.mode = .pbl → s.pageIdx = q % i.pageCnt) :
    (qedChainAdvancePage i s).elem = base ((q + 1) % i.pageCnt) ∧
      (qedChainAdvancePage i s).idx % 2 ^ e = 0 ∧
      (i.mode = .pbl → (qedChainAdvancePage i s).pageIdx = (q + 1) % i.pageCnt) := by
  have hN := R.pageCnt_pos
  unfold qedChainAdvancePage
  cases hm : i.mode with
  | nextPtr =>
    refine ⟨?_, ?_, by simp⟩
    · simp [hnext hm, Nat.mul_comm i.usablePerPage, R.next hm _ (mod_lt q hN), mod_add_mod]
    · simp only [wrap_mod R.toPow2]
      rw [add_mod, hidx, ← add_mod, R.usable_add, mod_self]
  | single =>
    refine ⟨?_, ?_, by simp⟩
    · simp [R.first, R.one hm, mod_one]
    · simp [hidx, usable_eq R.toPow2 (by simp [hm]), mod_self]
  | pbl =>
    have hp := hpage hm
    refine ⟨?_, ?_, fun _ => ?_⟩
    · simp only [hp, pageIdx_succ R hm]
      exact R.tbl hm _ (mod_lt _ hN)
    · simp [hidx, usable_eq R.toPow2 (by simp [hm]), mod_self]
    · simp [hp, pageIdx_succ R hm]

/-- A side that stands at the end of page `q` hands out the first element of the next. -/
theorem nextElem_of_fires {q k : ℕ} (hidx : s.idx % 2 ^ e = i.usablePerPage % 2 ^ e)
    (hnext : i.mode = .nextPtr → s.elem = base (q % i.pageCnt) + i.usablePerPage * i.elemSize)
    (hpage : i.mode = .pbl → s.pageIdx = q % i.pageCnt)
    (hq : lastPage i.usablePerPage (k + 1) % i.pageCnt = (q + 1) % i.pageCnt)
    (hr : fill i.usablePerPage (k + 1) = 1) :
    (qedChainNextElem i s).1 = base ((q + 1) % i.pageCnt) ∧
      SideAt i base (qedChainNextElem i s).2 (k + 1) := by
  obtain ⟨h₁, h₂, h₃⟩ := advancePage_spec R hnext hidx hpage
  simp only [qedChainNextElem, (fires_iff R.toPow2 s.idx).2 hidx, if_true]
  refine ⟨h₁, ⟨?_, ?_, fun hm => ?_⟩⟩
  · rw [hq, hr, one_mul, h₁]
  · rw [hr, R.perPage]
    simp only [wrap_mod R.toPow2]
    rw [add_mod, h₂, zero_add, mod_mod]
  · rw [hq]
    exact h₃ hm

theorem nextElem_of_inside {k : ℕ} (h : SideAt i base s k)
    (hidx : s.idx % 2 ^ e ≠ i.usablePerPage % 2 ^ e)
    (hin : fill i.usablePerPage k < i.usablePerPage) (hp : i.mode = .pbl → 0 < k) :
    (qedChainNextElem i s).1 = i.elemAddr base k ∧
      SideAt i base (qedChainNextElem i s).2 (k + 1) := by
  obtain ⟨hd, hmd⟩ := div_mod_of_fill_lt hin
  obtain ⟨hq, hr⟩ := succ_of_fill_lt hin
  simp only [qedChainNextElem, if_neg (mt (fires_iff R.toPow2 s.idx).1 hidx), elemAddr, hd, hmd]
  refine ⟨h.elem, ⟨?_, ?_, fun hm => ?_⟩⟩
  · rw [hq, hr, h.elem]
    ring
  · rw [hr, R.perPage]
    simp only [wrap_mod R.toPow2]
    rw [add_mod, ← R.perPage, h.idx, ← add_mod]
  · have hk := hp hm
    rw [if_neg (by omega), hq, h.page hm, if_neg (by omega)]

/-- **One element**: a side that has handed out `k` elements hands out element `k`. -/
theorem nextElem_spec {k : ℕ} (h : SideAt i base s k) :
    (qedChainNextElem i s).1 = i.elemAddr base k ∧
      SideAt i base (qedChainNextElem i s).2 (k + 1) := by
  have hU := R.usable_pos
  have hN := R.pageCnt_pos
  have hidx := h.idx
  rw [R.perPage] at hidx
  rcases Nat.eq_zero_or_pos k with rfl | hk
  · rw [fill_zero, zero_mod] at hidx
    by_cases hm : i.mode = .nextPtr
    · -- the first page of a next-pointer chain is entered by the reset
      refine nextElem_of_inside R h ?_ (by rwa [fill_zero]) (by simp [hm])
      rw [mod_eq_of_lt (usable_lt R.toPow2 hm)]
      omega
    · -- any other chain enters its first page from the end of the last one
      have hlast : i.pageCnt - 1 + 1 = i.pageCnt := by omega
      obtain ⟨h₁, h₂⟩ := nextElem_of_fires R (q := i.pageCnt - 1)
        (by rw [hidx, usable_eq R.toPow2 hm, mod_self]) (fun hc => absurd hc hm)
        (fun hp => by rw [h.page hp, if_pos rfl, mod_eq_of_lt (by omega)])
        (by rw [hlast, mod_self, lastPage_one, zero_mod]) fill_one
      refine ⟨?_, h₂⟩
      rw [h₁, hlast, mod_self, elemAddr, Nat.zero_div, zero_mod, zero_mod, zero_mul, add_zero]
  · have hpage : i.mode = .pbl → s.pageIdx = lastPage i.usablePerPage k % i.pageCnt := fun hp => by
      rw [h.page hp, if_neg (by omega)]
    rcases Nat.lt_or_ge (fill i.usablePerPage k) i.usablePerPage with hin | hat
    · exact nextElem_of_inside R h (by rw [hidx]; exact fill_mod_ne R.toPow2 hk hin) hin fun _ => hk
    · have hat := le_antisymm (fill_le hU k) hat
      obtain ⟨hd, hmd⟩ := div_mod_of_fill_eq hU hat
      obtain ⟨hq, hr⟩ := succ_of_fill_eq hU hat
      obtain ⟨h₁, h₂⟩ := nextElem_of_fires R
        (by rw [hidx, hat]) (fun _ => by rw [h.elem, hat]) hpage (by rw [hq]) hr
      exact ⟨by rw [h₁, elemAddr, hd, hmd, zero_mul, add_zero], h₂⟩

end Step

end FastLinQ.Qed
