import Mathlib

/-!
# Resources of a hardware function

The management firmware gives a hardware function a range of each resource. What the driver keeps is
relative to the range; the ids that a ramrod carries are absolute.
-/

namespace FastLinQ.Qed

inductive PciPersonality
  | eth
  | fcoe
  | iscsi
  | ethRoce
  | ethIwarp
  | ethRdma
  | default
  deriving DecidableEq, Repr

/-- `RESC_NUM` and `RESC_START` of a resource. -/
structure RescRange where
  num : ℕ
  start : ℕ
  deriving DecidableEq, Repr

structure HwResc where
  l2Queue : RescRange
  vport : RescRange
  rssEng : RescRange
  deriving DecidableEq, Repr

/-- The absolute id in a field of `w` bits; `none` is `-EINVAL`. -/
def RescRange.abs (r : RescRange) (w srcId : ℕ) : Option ℕ :=
  if r.num = 0 then none
  else if r.num ≤ srcId then none
  else some ((r.start + srcId) % 2 ^ w)

def qedFwL2Queue (resc : HwResc) (srcId : ℕ) : Option ℕ := resc.l2Queue.abs 16 srcId

def qedFwVport (resc : HwResc) (srcId : ℕ) : Option ℕ := resc.vport.abs 8 srcId

def qedFwRssEng (resc : HwResc) (srcId : ℕ) : Option ℕ := resc.rssEng.abs 8 srcId

theorem RescRange.abs_of_lt {r : RescRange} {w srcId : ℕ} (h : srcId < r.num) :
    r.abs w srcId = some ((r.start + srcId) % 2 ^ w) := by
  unfold RescRange.abs
  rw [if_neg (by omega), if_neg (by omega)]

theorem RescRange.lt_of_abs {r : RescRange} {w srcId dst : ℕ} (h : r.abs w srcId = some dst) :
    srcId < r.num := by
  unfold RescRange.abs at h
  split at h
  · nomatch h
  · split at h
    · nomatch h
    · omega

end FastLinQ.Qed
