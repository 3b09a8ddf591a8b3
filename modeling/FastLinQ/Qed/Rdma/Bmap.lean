import FastLinQ.Qed.Cxt.Cid

/-!
# The bitmaps of the RDMA resources

`struct qed_bmap`: PDs, DPIs, CQs, QPs, memory regions, SRQs and connections each have a bitmap of
`max_count` bits. A resource gets the first clear bit.
-/

namespace FastLinQ.Qed

/-- `struct qed_bmap`. Where `max_count` is 0 there is no memory for the bits, and none is read. -/
structure Bmap where
  maxCount : ℕ
  bitmap : ℕ → Bool

namespace Bmap

def setBit (b : Bmap) (i : ℕ) : Bmap := { b with bitmap := Function.update b.bitmap i true }

def clearBit (b : Bmap) (i : ℕ) : Bmap := { b with bitmap := Function.update b.bitmap i false }

/-- `qed_rdma_bmap_alloc_id`; `none` is `-EINVAL`. -/
def qedRdmaBmapAllocId (b : Bmap) : Option ℕ × Bmap :=
  let id := findFirstZeroBit b.bitmap b.maxCount
  if b.maxCount ≤ id then (none, b) else (some id, b.setBit id)

def qedBmapReleaseId (b : Bmap) (id : ℕ) : Bmap := if b.maxCount ≤ id then b else b.clearBit id

/-- The id that is given out next, unless all are in use. -/
def first (b : Bmap) : ℕ := findFirstZeroBit b.bitmap b.maxCount

theorem bitmap_first {b : Bmap} (h : b.first < b.maxCount) : b.bitmap b.first = false :=
  findFirstZeroBit_lt h

theorem allocId_full {b : Bmap} (h : ¬ b.first < b.maxCount) : b.qedRdmaBmapAllocId = (none, b) :=
  if_pos (Nat.le_of_not_lt h)

theorem allocId_first {b : Bmap} (h : b.first < b.maxCount) :
    b.qedRdmaBmapAllocId = (some b.first, b.setBit b.first) :=
  if_neg (Nat.not_le.2 h)

end Bmap

end FastLinQ.Qed
