import FastLinQ.Qed.Chain.Wide

/-!
# The work queues of a kernel QP

A QP created by a kernel client has a send queue (SQ) and a receive queue (RQ). A work request (WR)
takes one or more elements of the queue's chain, which the device reads, and one entry of a shadow
array, in which the driver remembers what to tell the client when the WR is completed. The two are
rings of their own: the chain has a producer and a consumer in elements, the shadow array has `prod`
and `cons` in WRs, modulo `max_wr`. A third counter, `wqe_cons`, counts completed WRs in 16 bits; it
is what the device speaks about.

`QueueAt` says where a queue's counters stand after some WRs were posted and some of them completed,
and what the shadow array holds.
-/

namespace FastLinQ.Qedr

open Qed Function List Nat Word Cells

/-! ## Limits -/

def RDMA_MAX_SGE_PER_SQ_WQE : ℕ := 4

def RDMA_MAX_SGE_PER_RQ_WQE : ℕ := 4

def QED_RDMA_MAX_WQE : ℕ := 0x7FFF

/-- `sizeof(struct rdma_sq_sge)`. -/
def QEDR_SQE_ELEMENT_SIZE : ℕ := 16

/-- `sizeof(struct rdma_rq_sge)`. -/
def QEDR_RQE_ELEMENT_SIZE : ℕ := 16

def ROCE_REQ_MAX_SINGLE_SQ_WQE_SIZE : ℕ := 288

def ROCE_REQ_MAX_INLINE_DATA_SIZE : ℕ := 256

def IWARP_REQ_MAX_INLINE_DATA_SIZE : ℕ := 128

def RDMA_RING_PAGE_SIZE : ℕ := 0x1000

def QEDR_MAX_SQE_ELEMENTS_PER_SQE : ℕ := ROCE_REQ_MAX_SINGLE_SQ_WQE_SIZE / QEDR_SQE_ELEMENT_SIZE

def QEDR_MAX_RQE_ELEMENTS_PER_RQE : ℕ := RDMA_MAX_SGE_PER_RQ_WQE

def QEDR_MAX_SQ_PBL_ENTRIES : ℕ := 0x10000 / 8

def QEDR_MAX_RQ_PBL_ENTRIES : ℕ := 0x10000 / 8

def QEDR_MAX_SQE : ℕ :=
  QEDR_MAX_SQ_PBL_ENTRIES * RDMA_RING_PAGE_SIZE / QEDR_SQE_ELEMENT_SIZE /
    QEDR_MAX_SQE_ELEMENTS_PER_SQE

def QEDR_MAX_RQE : ℕ :=
  QEDR_MAX_RQ_PBL_ENTRIES * RDMA_RING_PAGE_SIZE / QEDR_RQE_ELEMENT_SIZE /
    QEDR_MAX_RQE_ELEMENTS_PER_RQE

/-- `attr->max_sqe` of `qedr_set_device_attr`. -/
def maxSqe : ℕ := min QED_RDMA_MAX_WQE QEDR_MAX_SQE

/-- `attr->max_rqe` of `qedr_set_device_attr`. -/
def maxRqe : ℕ := min QED_RDMA_MAX_WQE QEDR_MAX_RQE

/-- The device: its protocol, and the module parameters. -/
structure QedrDev where
  iwarp : Bool
  rdmaMaxSge : ℕ
  wqMultiplier : ℕ
  /-- `qedr_init_module_params` refuses other values. -/
  wqMultiplier_range : 1 ≤ wqMultiplier ∧ wqMultiplier ≤ 256

/-- `max_sge` of `qed_rdma_init_devinfo`. -/
def QedrDev.maxSge (dev : QedrDev) : ℕ :=
  let maxSge := min RDMA_MAX_SGE_PER_SQ_WQE RDMA_MAX_SGE_PER_RQ_WQE
  if dev.rdmaMaxSge ≠ 0 then min dev.rdmaMaxSge maxSge else maxSge

/-- The part of `struct ib_qp_init_attr` that the queues depend on. -/
structure QpInitAttr where
  maxSendWr : ℕ
  maxRecvWr : ℕ
  maxSendSge : ℕ
  maxRecvSge : ℕ
  /-- `sq_sig_type == IB_SIGNAL_ALL_WR`. -/
  sigAllWr : Bool
  deriving DecidableEq, Repr

/-- `qedr_check_qp_attrs`, as far as the queues depend on it. -/
def qedrCheckQpAttrs (dev : QedrDev) (attrs : QpInitAttr) : Bool :=
  attrs.maxSendWr ≤ maxSqe && attrs.maxRecvWr ≤ maxRqe && attrs.maxSendSge ≤ dev.maxSge &&
    attrs.maxRecvSge ≤ dev.maxSge

/-! ## A queue -/

/-- `struct qedr_qp_hwq_info`; `dbValue` is `db_data.data.value`. -/
structure HwqInfo where
  pbl : Chain
  maxSges : ℕ
  prod : ℕ
  cons : ℕ
  wqeCons : ℕ
  maxWr : ℕ
  dbValue : ℕ

namespace HwqInfo

def qedrIncSwCons (info : HwqInfo) : HwqInfo :=
  { info with cons := (info.cons + 1) % info.maxWr, wqeCons := (info.wqeCons + 1) % 2 ^ 16 }

def qedrIncSwProd (info : HwqInfo) : HwqInfo := { info with prod := (info.prod + 1) % info.maxWr }

/-- The end of a turn of `process_req`, `process_resp_one` and `process_resp_flush`: the elements of
the WR are consumed, as many as its shadow entry says. -/
def complete (info : HwqInfo) (wqeSize : ℕ) : HwqInfo :=
  ({ info with pbl := consumeN wqeSize info.pbl }).qedrIncSwCons

/-- A queue after `qedr_create_kernel_qp`, in zeroed memory. -/
def fresh (pbl : Chain) (maxSges maxWr : ℕ) : HwqInfo := ⟨pbl, maxSges, 0, 0, 0, maxWr, 0⟩

end HwqInfo

def wqChainParams (numElems elemSize : ℕ) (extPbl : Option DmaBlock) : ChainParams :=
  { qedChainParamsInit .toProduce .pbl .u32 numElems elemSize with extPbl := extPbl }

/-! ## Where a queue stands -/

/-- The WRs with the shadow entries `posted` were posted, the first `c` of them are completed. -/
structure QueueAt {I : Type*} (info : HwqInfo) (ids : ℕ → I) (posted : List I) (c : ℕ) : Prop where
  le : c ≤ posted.length
  room : posted.length ≤ c + info.maxWr
  prod : info.prod = posted.length % info.maxWr
  cons : info.cons = c % info.maxWr
  wqeCons : info.wqeCons = c % 2 ^ 16
  holds : Holds (· % info.maxWr) ids c (posted.drop c)

namespace QueueAt

variable {I : Type*} {info : HwqInfo} {ids : ℕ → I} {posted : List I} {c : ℕ}

theorem start (pbl : Chain) (maxSges maxWr : ℕ) (ids : ℕ → I) :
    QueueAt (.fresh pbl maxSges maxWr) ids [] 0 where
  le := le_rfl
  room := Nat.zero_le _
  prod := (zero_mod _).symm
  cons := (zero_mod _).symm
  wqeCons := rfl
  holds := trivial

variable (h : QueueAt info ids posted c)

include h

/-- Only the counters and the shadow array matter. -/
theorem congr {info' : HwqInfo} (hmax : info'.maxWr = info.maxWr) (hprod : info'.prod = info.prod)
    (hcons : info'.cons = info.cons) (hwqe : info'.wqeCons = info.wqeCons) :
    QueueAt info' ids posted c where
  le := h.le
  room := hmax ▸ h.room
  prod := by rw [hmax, hprod, h.prod]
  cons := by rw [hmax, hcons, h.cons]
  wqeCons := hwqe.trans h.wqeCons
  holds := by
    rw [hmax]
    exact h.holds

section

variable (hroom : posted.length < c + info.maxWr)

include hroom

/-- The entry of the producer is free as long as the array is not full. -/
theorem scratch (e : I) :
    QueueAt info (update ids info.prod e) posted c := by
  refine { h with holds := h.holds.congr fun n hn hlt => update_of_ne ?_ _ _ }
  rw [length_drop] at hlt
  rw [h.prod]
  exact apart_mod info.maxWr n posted.length (by omega) (by omega)

theorem post (e : I) :
    QueueAt info.qedrIncSwProd (update ids info.prod e) (posted ++ [e]) c where
  le := by
    rw [length_append]
    exact h.le.trans (Nat.le_add_right _ _)
  room := by
    rw [length_append]
    exact hroom
  prod := by
    change (info.prod + 1) % info.maxWr = _
    rw [h.prod, mod_add_mod, length_append]
    rfl
  cons := h.cons
  wqeCons := h.wqeCons
  holds := by
    rw [drop_append_of_le_length h.le, holds_append]
    refine ⟨(h.scratch hroom e).holds, ?_, trivial⟩
    have hle := h.le
    rw [length_drop, Nat.add_sub_cancel' hle]
    change update ids info.prod e (posted.length % info.maxWr) = e
    rw [← h.prod, update_self]

/-- A queue that keeps one entry of the array free, and is not full by this count. -/
theorem room_of_not_full (hfull : (info.prod + 1) % info.maxWr ≠ info.cons) :
    posted.length + 1 < c + info.maxWr := by
  by_contra hlast
  refine hfull ?_
  rw [h.prod, h.cons, mod_add_mod, show posted.length + 1 = c + info.maxWr by omega, add_mod_right]

end

/-- The entry of the consumer is that of the oldest WR. -/
theorem entry {e : I} (he : posted[c]? = some e) : ids info.cons = e := by
  obtain ⟨hlt, rfl⟩ := List.getElem?_eq_some_iff.1 he
  have hholds := h.holds
  rw [drop_eq_getElem_cons hlt] at hholds
  rw [h.cons]
  exact hholds.1

/-- The oldest WR is completed; its entry is left as it may be. -/
theorem complete (hlt : c < posted.length) (wqeSize : ℕ) (e : I) :
    QueueAt (info.complete wqeSize) (update ids info.cons e) posted (c + 1) where
  le := hlt
  room := by
    have hroom := h.room
    change posted.length ≤ c + 1 + info.maxWr
    omega
  prod := h.prod
  cons := by
    change (info.cons + 1) % info.maxWr = _
    rw [h.cons, mod_add_mod]
    rfl
  wqeCons := by
    change (info.wqeCons + 1) % 2 ^ 16 = _
    rw [h.wqeCons, mod_add_mod]
  holds := by
    have hholds := h.holds
    have hroom := h.room
    rw [drop_eq_getElem_cons hlt] at hholds
    refine hholds.2.congr fun n hn hn' => update_of_ne ?_ _ _
    rw [length_drop] at hn'
    rw [h.cons]
    exact (apart_mod info.maxWr c n (by omega) (by omega)).symm

/-- The device's count of completed WRs tells how far to go. -/
theorem wqeCons_eq_iff {a : ℕ} (hmax : info.maxWr < 2 ^ 16) (hca : c ≤ a)
    (ha : a ≤ posted.length) : info.wqeCons = a % 2 ^ 16 ↔ c = a := by
  have hroom := h.room
  rw [h.wqeCons]
  refine ⟨fun hmod => ?_, fun heq => by rw [heq]⟩
  rcases hca.lt_or_eq with hlt | heq
  · exact absurd hmod (apart_mod (2 ^ 16) c a hlt (by omega))
  · exact heq

/-- The number of turns that a completion loop allows itself is right. -/
theorem turns_eq {a : ℕ} (hmax : info.maxWr < 2 ^ 16) (hca : c ≤ a) (ha : a ≤ posted.length) :
    Word.sub 16 (a % 2 ^ 16) info.wqeCons = a - c := by
  have hroom := h.room
  rw [h.wqeCons, sub_mod_left, sub_mod_right, sub_of_le hca]
  exact mod_eq_of_lt (by omega)

end QueueAt

end FastLinQ.Qedr
