import FastLinQ.Foundations.Cells
import FastLinQ.Qed.Chain.Fifo
import FastLinQ.Qed.Chain.Rollback

/-!
# Sides of a chain with a page table

`SideAt` fixes the element pointer of a side everywhere. On a chain with a page table the
pointer is not read when the side stands at the end of a page, since the next page is looked up
in the table, and a driver that puts its producer back to an element it was given leaves another
pointer there than the chain itself would. `PblAt i base s k` is what the operations rely on:
the index and the page index after `k` elements, and the pointer inside a page.
-/

namespace FastLinQ.Qed

open Paged Nat ChainInfo

/-- `k` elements have been handed out on this side of a chain with a page table. -/
structure PblAt (i : ChainInfo) (base : ℕ → ℕ) (s : ChainSide) (k : ℕ) : Prop where
  idx : s.idx = i.wrap k
  page : s.pageIdx = (i.pageCnt - 1 + opened i.elemPerPage k) % i.pageCnt
  elem : k % i.elemPerPage ≠ 0 → s.elem = i.elemAddr base k

section Side

variable {i : ChainInfo} {base : ℕ → ℕ} {e : ℕ} (R : i.Ring base e) (hm : i.mode = .pbl)
  {s : ChainSide} {k : ℕ} (h : PblAt i base s k)

include R h

theorem PblAt.sideOk : SideOk i s := by
  refine ⟨?_, ?_⟩
  · rw [h.idx]
    exact i.wrap_lt k
  · rw [h.page]
    exact mod_lt _ R.pageCnt_pos

include hm

theorem PblAt.next :
    (qedChainNextElem i s).1 = i.elemAddr base k ∧ PblAt i base (nextSide i s) (k + 1) := by
  have hE := Nat.two_pow_pos e
  have hN := R.pageCnt_pos
  have hU := usable_eq R.toPow2 (by simp [hm] : i.mode ≠ .nextPtr)
  have hok := h.sideOk R
  obtain ⟨hidx, hpage⟩ := nextSide_spec R hm hok
  have hmod : s.idx % 2 ^ e = k % 2 ^ e := by rw [h.idx, wrap_mod R.toPow2]
  have hopen : (i.pageCnt - 1 + opened (2 ^ e) (k + 1)) % i.pageCnt = k / 2 ^ e % i.pageCnt := by
    rw [opened_of_pos hE (show 0 < k + 1 by omega), Nat.add_sub_cancel,
      show i.pageCnt - 1 + (k / 2 ^ e + 1) = k / 2 ^ e + i.pageCnt by omega, add_mod_right]
  have hpage' : (nextSide i s).pageIdx = k / 2 ^ e % i.pageCnt := by
    rw [hpage, hmod, ← hopen, opened_succ hE, h.page, R.perPage]
    split
    · rw [mod_add_mod, Nat.add_assoc]
    · rfl
  have haddr : (qedChainNextElem i s).1 = i.elemAddr base k := by
    have hfire := fires_iff R.toPow2 s.idx
    rw [hU, mod_self, hmod] at hfire
    simp only [qedChainNextElem, nextSide, qedChainAdvancePage, hm, hfire] at hpage' ⊢
    split
    · rename_i hz
      rw [if_pos hz] at hpage'
      -- the page is looked up, whatever the pointer was
      have htbl := R.tbl hm _ (mod_lt (k / 2 ^ e) hN)
      rw [← hpage'] at htbl
      refine htbl.trans ?_
      rw [hpage', elemAddr, hU, hz, zero_mul, add_zero]
    · exact h.elem (by rwa [R.perPage])
  refine ⟨haddr, ⟨?_, ?_, fun hin => ?_⟩⟩
  · rw [hidx, h.idx, i.wrap_wrap_add]
  · rw [hpage', R.perPage, hopen]
  · -- the pointer is behind the element that was handed out
    rw [R.perPage] at hin
    have hdiv := succ_div_of_not_dvd fun hdvd => hin (mod_eq_zero_of_dvd hdvd)
    have hmod' : (k + 1) % 2 ^ e = k % 2 ^ e + 1 := by
      have h₁ := div_add_mod (k + 1) (2 ^ e)
      have h₂ := div_add_mod k (2 ^ e)
      rw [hdiv] at h₁
      omega
    change (qedChainNextElem i s).1 + i.elemSize = _
    rw [haddr, elemAddr, elemAddr, hU, hdiv, hmod', Nat.add_mul, one_mul, Nat.add_assoc]

theorem PblAt.iterate (n : ℕ) : PblAt i base ((nextSide i)^[n] s) (k + n) := by
  induction n with
  | zero => exact h
  | succ n ih =>
    rw [Function.iterate_succ_apply']
    exact (ih.next R hm).2

end Side

theorem PblAt.withElem {i : ChainInfo} {base : ℕ → ℕ} {s : ChainSide} {k : ℕ}
    (h : PblAt i base s k) : PblAt i base { s with elem := i.elemAddr base k } k :=
  ⟨h.idx, h.page, fun _ => rfl⟩

/-! ## From the allocation -/

theorem pblAt_resetSide {c d : Chain} {base : ℕ → ℕ} {e : ℕ} (R : c.Ring base e)
    (hm : c.mode = .pbl) (hdc : d.toChainShape = c.toChainShape) (s : ChainSide) :
    PblAt c base (d.resetSide s) 0 := by
  have hpage : d.wrap (Word.sub 32 d.pageCnt 1) =
      (c.pageCnt - 1 + opened c.elemPerPage 0) % c.pageCnt := by
    rw [hdc, reset_pageIdx R hm, R.perPage, opened_zero (Nat.two_pow_pos e)]
    exact (mod_eq_of_lt (sub_lt R.pageCnt_pos one_pos)).symm
  have hmode' : d.mode = .pbl := by rw [hdc]; exact hm
  refine ⟨(zero_mod _).symm, ?_, fun hz => absurd (zero_mod _) hz⟩
  simp only [resetSide, hmode']
  exact hpage

section

variable {env : DmaEnv} {p : ChainParams} {c : Chain} {e : ℕ} (h : qedChainAlloc env p = .ok c)
  (R : c.Ring env.addr e) (hm : p.mode = .pbl) (hs : c.toChainShape = p.init.toChainShape)

include h hm hs

theorem exists_reset_of_alloc : c.mode = .pbl ∧ ∃ d : Chain, d.toChainShape = c.toChainShape ∧
    c.prod = (qedChainReset d).prod ∧ c.cons = (qedChainReset d).cons := by
  obtain ⟨-, -, -, hok⟩ := alloc_ok h
  simp only [hm] at hok
  obtain ⟨hN, inv⟩ := allocPbl_ok hok
  obtain ⟨d, hd, hsides⟩ := inv.sides hN
  exact ⟨by rw [hs]; exact hm, d, hd.trans hs.symm, hsides⟩

include R

theorem pblAt_cons_of_alloc : PblAt c env.addr c.cons 0 := by
  obtain ⟨hmode, d, hd, -, hcons⟩ := exists_reset_of_alloc h hm hs
  rw [hcons, qedChainReset_cons]
  exact pblAt_resetSide R hmode hd _

theorem pblAt_of_alloc (hu : p.intendedUse ≠ .toConsume) :
    PblAt c env.addr c.prod 0 ∧ PblAt c env.addr c.cons 0 := by
  obtain ⟨hmode, d, hd, hprod, -⟩ := exists_reset_of_alloc h hm hs
  have huse : d.intendedUse ≠ .toConsume := by rw [hd, hs]; exact hu
  have hreset : (qedChainReset d).prod = d.resetSide d.prod := by
    unfold qedChainReset
    cases hc : d.intendedUse with
    | toConsume => exact absurd hc huse
    | toProduce => rfl
    | toConsumeProduce => rfl
  refine ⟨?_, pblAt_cons_of_alloc h R hm hs⟩
  rw [hprod, hreset]
  exact pblAt_resetSide R hmode hd _

end

end FastLinQ.Qed
