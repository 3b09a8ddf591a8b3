import FastLinQ.Foundations.Slice
import FastLinQ.Qed.Chain.Account
import FastLinQ.Qed.Chain.Pbl

/-!
# Chains with a page table and 32-bit counters

The work queues and the completion queue of RDMA are such chains. No turn of the ring exhausts their
counters, so the free space that the driver sees is exact, and the producer can always be put back.
`WideRing` is what `qed_chain_alloc` makes of them.
-/

namespace FastLinQ.Qed

open Paged List Nat

/-- A chain with a page table, `2 ^ e` elements in a page and 32-bit counters. -/
structure WideRing (i : ChainInfo) (base : ℕ → ℕ) (e : ℕ) : Prop where
  ring : i.Ring base e
  mode : i.mode = .pbl
  cnt : i.cntType = .u32
  bits_lt : e < 16
  capacity_eq : i.capacity = 2 ^ e * i.pageCnt
  capacity_lt : i.capacity < 2 ^ 32
  apart : Cells.Apart (i.elemAddr base) i.capacity

theorem wideRing_of_alloc {env : DmaEnv} {p : ChainParams} {c : Chain} {e : ℕ}
    (h : qedChainAlloc env p = .ok c) (hd : env.Disjoint p.pageSize p.pageCnt)
    (hm : p.mode = .pbl) (hcnt : p.cntType = .u32) (hes : p.elemSize < 2 ^ 8) (he : e < 16)
    (hpow : elemsPerPage p.pageSize p.elemSize = 2 ^ e) :
    WideRing c env.addr e ∧ c.toChainShape = p.init.toChainShape := by
  have hmod := mod_eq_of_lt hes
  obtain ⟨hs, -, -⟩ := linked_of_alloc (pageSize_pos hpow) hd h
  obtain ⟨R, hmode, -, -, hlt⟩ := pbl_of_alloc h hd hm hes he hpow
  have hcnt' : c.cntType = .u32 := by rw [hs]; exact hcnt
  have husable := usable_eq R.toPow2 (by rw [hmode]; nofun)
  have hU : 0 < c.usablePerPage := by rw [husable]; exact Nat.two_pow_pos e
  have hpage : c.pageCnt = p.pageCnt := by rw [hs]; rfl
  have hcap : c.capacity = 2 ^ e * c.pageCnt := by
    rw [R.capacity_eq, husable, mod_eq_of_lt (hlt hcnt')]
  have hsize : 0 < c.elemSize := by
    obtain ⟨hpos, -, -, -⟩ := alloc_ok h
    rw [hs]
    change 0 < p.elemSize % 2 ^ 8
    omega
  have hfit := elems_le_pageSize h hd he (by rw [hmod]; exact hpow) hU
  refine ⟨⟨R, hmode, hcnt', he, hcap, hcap ▸ hlt hcnt', fun j k hjk hk => ?_⟩, hs⟩
  refine elemAddr_ne (hpage ▸ hd) R.pageCnt_pos hU hfit hsize hjk ?_
  rw [husable, ← hcap]
  exact hk

namespace WideRing

variable {i : ChainInfo} {base : ℕ → ℕ} {e : ℕ} (T : WideRing i base e)

include T

theorem usable : i.usablePerPage = 2 ^ e := usable_eq T.ring.toPow2 (by rw [T.mode]; nofun)

theorem le_capacity : 2 ^ e ≤ i.capacity := by
  rw [T.capacity_eq]
  exact Nat.le_mul_of_pos_right _ T.ring.pageCnt_pos

/-- The ring comes round. -/
theorem elemAddr_add (k : ℕ) : i.elemAddr base (k + i.capacity) = i.elemAddr base k := by
  have hpos := Nat.two_pow_pos e
  unfold ChainInfo.elemAddr
  rw [T.usable, T.capacity_eq, add_mul_div_left _ _ hpos, add_mod_right, add_mul_mod_self_left]

theorem elemAddr_mod (k : ℕ) : i.elemAddr base (k % i.capacity) = i.elemAddr base k := by
  have hround : ∀ m, i.elemAddr base (k % i.capacity + i.capacity * m) =
      i.elemAddr base (k % i.capacity) := by
    intro m
    induction m with
    | zero => rfl
    | succ m ih => rw [mul_succ, ← Nat.add_assoc, T.elemAddr_add, ih]
  rw [← hround (k / i.capacity), mod_add_div]

omit T in
theorem elemLeft {c : Chain} (T : WideRing c base e) {k n : ℕ}
    (hp : PblAt c base c.prod (k + n)) (hc : PblAt c base c.cons k)
    (hn : n ≤ c.capacity) : qedChainGetElemLeftU32 c = c.capacity - n := by
  have hleft := elemLeft_of_ne (by rw [T.mode]; nofun) hp.idx hc.idx
    (Nat.le_add_right k n) (Nat.add_le_add_left hn k)
  have hlt := T.capacity_lt
  simp only [Nat.add_sub_cancel_left, Qed.elemLeft, T.cnt] at hleft
  exact hleft.trans (mod_eq_of_lt (show c.capacity - n < 2 ^ 32 by omega))

omit T in
theorem setProd_produceN {c : Chain} (T : WideRing c base e)
    (hs : SideOk c c.prod) {n : ℕ} (hn : n < c.capacity) (elem : ℕ) :
    qedChainSetProd (produceN n c) c.prod.idx elem =
      { c with prod := { c.prod with elem := elem } } := by
  have hsize := T.capacity_eq ▸ T.capacity_lt
  have hback := (setSide_iff ⟨T.ring, T.mode, T.bits_lt, by rw [T.cnt]; exact hsize.le,
    fun _ => hsize⟩ hs hn elem).2 (.inl T.cnt)
  rw [produceN_eq]
  exact congrArg (fun s => { c with prod := s }) hback

end WideRing

/-! ## The elements that are handed out -/

/-- The elements that the next `n` calls of `qed_chain_produce` hand out. -/
def produceList : ℕ → Chain → List ℕ
  | 0, _ => []
  | n + 1, c => (qedChainProduce c).1 :: produceList n (qedChainProduce c).2

/-- The elements that the next `n` calls of `qed_chain_consume` hand out. -/
def consumeList : ℕ → Chain → List ℕ
  | 0, _ => []
  | n + 1, c => (qedChainConsume c).1 :: consumeList n (qedChainConsume c).2

theorem length_produceList (n : ℕ) (c : Chain) : (produceList n c).length = n := by
  induction n generalizing c with
  | zero => rfl
  | succ n ih => rw [produceList, length_cons, ih]

theorem produceList_add (n m : ℕ) (c : Chain) :
    produceList (n + m) c = produceList n c ++ produceList m (produceN n c) := by
  induction n generalizing c with
  | zero =>
    rw [Nat.zero_add]
    rfl
  | succ n ih =>
    rw [succ_add, produceList, ih, produceList]
    rfl

theorem produceN_add (n m : ℕ) (c : Chain) : produceN (n + m) c = produceN m (produceN n c) := by
  unfold produceN
  rw [Nat.add_comm, Function.iterate_add_apply]

section List

variable {c : Chain} {base : ℕ → ℕ} {e k : ℕ} (T : WideRing c base e)

include T

theorem produceList_eq (h : PblAt c base c.prod k) (n : ℕ) :
    produceList n c = slice (c.elemAddr base) k n := by
  induction n generalizing c k with
  | zero => rfl
  | succ n ih =>
    obtain ⟨haddr, hnext⟩ := h.next T.ring T.mode
    rw [produceList, slice_succ]
    congr 1
    exact ih T hnext

theorem consumeList_eq (h : PblAt c base c.cons k) (n : ℕ) :
    consumeList n c = slice (c.elemAddr base) k n := by
  induction n generalizing c k with
  | zero => rfl
  | succ n ih =>
    obtain ⟨haddr, hnext⟩ := h.next T.ring T.mode
    rw [consumeList, slice_succ]
    congr 1
    exact ih T hnext

theorem nodup_slice {n : ℕ} (hn : n ≤ c.capacity) : (slice (c.elemAddr base) k n).Nodup := by
  rw [nodup_iff_pairwise_ne, slice, pairwise_map]
  refine List.Pairwise.imp_of_mem ?_ pairwise_lt_range
  intro a b ha hb hab
  rw [mem_range] at hb
  exact T.apart (k + a) (k + b) (by omega) (by omega)

end List

end FastLinQ.Qed
