import FastLinQ.Qedr.Queue

/-!
# The elements of a work queue

`ElemsAt base pbl elems c` says where the chain of a work queue stands after WRs were posted that
took the elements `elems`, one list for each of them, and the first `c` of them were completed: they
were laid one behind the other on the ring, the producer is behind the last of them, the consumer
behind the last completed one.
-/

namespace FastLinQ.Qedr

open Qed List

structure ElemsAt (base : ℕ → ℕ) (pbl : Chain) (elems : List (List ℕ)) (c : ℕ) : Prop where
  ring : WideRing pbl base 8
  laid : Laid (pbl.elemAddr base) 0 elems
  prod : PblAt pbl base pbl.prod elems.flatten.length
  cons : PblAt pbl base pbl.cons (elems.take c).flatten.length
  fits : elems.flatten.length ≤ (elems.take c).flatten.length + pbl.capacity

theorem wqChain_of_alloc {env : DmaEnv} {numElems : ℕ} {extPbl : Option DmaBlock} {pbl : Chain}
    (h : qedChainAlloc env (wqChainParams numElems 16 extPbl) = .ok pbl)
    (hd : env.Disjoint QED_CHAIN_PAGE_SIZE (wqChainParams numElems 16 extPbl).pageCnt) :
    ElemsAt env.addr pbl [] 0 := by
  have hsmall : 16 < 2 ^ 8 := by decide
  have hper : elemsPerPage QED_CHAIN_PAGE_SIZE 16 = 2 ^ 8 := by decide
  obtain ⟨T, hs⟩ := wideRing_of_alloc h hd rfl rfl hsmall (by decide) hper
  obtain ⟨hprod, hcons⟩ := pblAt_of_alloc h T.ring rfl hs nofun
  exact ⟨T, trivial, hprod, hcons, Nat.zero_le _⟩

namespace ElemsAt

variable {base : ℕ → ℕ} {pbl : Chain} {elems : List (List ℕ)} {c n : ℕ}
  (h : ElemsAt base pbl elems c)

include h

/-- The elements of the WRs that are not completed are different. -/
theorem nodup : ((elems.drop c).flatten).Nodup := by
  have hdrop := (h.laid.drop c).flatten
  have hfits := h.fits
  have hsum : elems.flatten.length =
      (elems.take c).flatten.length + (elems.drop c).flatten.length := by
    rw [← length_append, ← flatten_append, take_append_drop]
  rw [hdrop]
  exact nodup_slice h.ring (by omega)

theorem elemLeft : qedChainGetElemLeftU32 pbl =
    (elems.take c).flatten.length + pbl.capacity - elems.flatten.length := by
  have hfits := h.fits
  have hle : (elems.take c).flatten.length ≤ elems.flatten.length := by
    conv_rhs => rw [← take_append_drop c elems, flatten_append, length_append]
    exact Nat.le_add_right _ _
  have hprod := h.prod
  rw [← Nat.add_sub_cancel' hle] at hprod
  rw [h.ring.elemLeft hprod h.cons (by omega)]
  omega

theorem post (hc : c ≤ elems.length) (hn : n ≤ qedChainGetElemLeftU32 pbl) :
    ElemsAt base (produceN n pbl) (elems ++ [produceList n pbl]) c where
  ring := by
    rw [produceN_eq]
    exact h.ring
  laid := by
    rw [produceN_eq]
    refine h.laid.append ?_
    rw [length_produceList, Nat.zero_add, ← produceList_eq h.ring h.prod]
  prod := by
    rw [produceN_eq, flatten_append, length_append, flatten_singleton, length_produceList]
    exact h.prod.iterate h.ring.ring h.ring.mode n
  cons := by
    rw [produceN_eq, take_append_of_le_length hc]
    exact h.cons
  fits := by
    have hfits := h.fits
    rw [h.elemLeft] at hn
    rw [produceN_eq, flatten_append, length_append, flatten_singleton,
      length_produceList, take_append_of_le_length hc]
    dsimp only
    omega

theorem putBack (hn : n < pbl.capacity) : ElemsAt base
    (qedChainSetProd (produceN n pbl) pbl.prod.idx (qedChainProduce pbl).1) elems c := by
  have haddr : (qedChainProduce pbl).1 = pbl.elemAddr base elems.flatten.length :=
    (h.prod.next h.ring.ring h.ring.mode).1
  rw [h.ring.setProd_produceN (h.prod.sideOk h.ring.ring) hn, haddr]
  exact ⟨h.ring, h.laid, h.prod.withElem, h.cons, h.fits⟩

/-- The oldest WR is completed: the elements that are consumed are those it was given. -/
theorem complete (hc : c < elems.length) :
    consumeList elems[c].length pbl = elems[c] ∧
      ElemsAt base (consumeN elems[c].length pbl) elems (c + 1) := by
  have hlaid := h.laid.drop c
  rw [drop_eq_getElem_cons hc, Nat.zero_add] at hlaid
  have hsucc : (elems.take (c + 1)).flatten.length =
      (elems.take c).flatten.length + elems[c].length := by
    rw [take_succ_eq_append_getElem hc, flatten_append, length_append, flatten_singleton]
  refine ⟨?_, ?_⟩
  · rw [consumeList_eq h.ring h.cons]
    exact hlaid.1.symm
  · have hfits := h.fits
    rw [consumeN_eq]
    refine ⟨h.ring, h.laid, h.prod, ?_, ?_⟩
    · rw [hsucc]
      exact h.cons.iterate h.ring.ring h.ring.mode _
    · dsimp only
      omega

end ElemsAt

end FastLinQ.Qedr
