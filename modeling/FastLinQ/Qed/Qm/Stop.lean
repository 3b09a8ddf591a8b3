import FastLinQ.Foundations.Bitmap
import FastLinQ.Foundations.Loop
import FastLinQ.Foundations.Word

/-!
# Stop commands of the queue manager (QM)

`qed_send_qm_stop_cmd` stops a range of physical queues (PQs), or releases them. A command names a
group of 32 PQs and has a mask with a bit for each PQ of the group. The loop goes over the PQs,
collects their bits, and sends a command at the end of a group and at the last PQ.

The last PQ is `start_pq + num_pqs - 1` in 32 bits. For no PQs from PQ 0 on this is the largest
number there is, and the loop never ends.
-/

namespace FastLinQ.Qed

open Bitmap BitVec List

def QM_STOP_PQ_MASK_WIDTH : ℕ := 32

def setField32 (value mask : BitVec 32) (shift : ℕ) (flag : BitVec 32) : BitVec 32 :=
  value &&& ~~~(mask <<< shift) ||| (flag &&& mask) <<< shift

/-- The loop of `qed_send_qm_stop_cmd`. -/
structure QmStop where
  pqId : ℕ
  pqMask : BitVec 32
  /-- `cmd_arr` -/
  lsb : BitVec 32
  msb : BitVec 32
  /-- the commands that were sent -/
  sent : List (BitVec 32 × BitVec 32)
  failed : Bool

namespace QmStop

variable {s : QmStop} {start num last : ℕ} {isTxPq : Bool}

/-- One turn of the loop; `ok` is the result of `qed_send_qm_cmd`, if it is called. -/
def turn (isReleaseCmd : Bool) (last : ℕ) (s : QmStop) (ok : Bool) : QmStop :=
  let pqMask := if isReleaseCmd then s.pqMask
    else s.pqMask ||| 1#32 <<< (s.pqId % QM_STOP_PQ_MASK_WIDTH)
  if s.pqId = last ∨ s.pqId % QM_STOP_PQ_MASK_WIDTH = QM_STOP_PQ_MASK_WIDTH - 1 then
    let lsb := setField32 s.lsb (allOnes 32) 0 pqMask
    let msb := setField32 s.msb 15 16 (.ofNat 32 (s.pqId / QM_STOP_PQ_MASK_WIDTH))
    let sent := s.sent ++ [(lsb, msb)]
    if ok then ⟨(s.pqId + 1) % 2 ^ 32, 0, lsb, msb, sent, false⟩
    else ⟨s.pqId, pqMask, lsb, msb, sent, true⟩
  else { s with pqId := (s.pqId + 1) % 2 ^ 32, pqMask := pqMask }

def Ended (last : ℕ) (s : QmStop) : Prop := s.failed = true ∨ last < s.pqId
  deriving Decidable

def lastPq (start num : ℕ) : ℕ := Word.sub 32 (start + num) 1

/-- The loop of `qed_send_qm_stop_cmd` after `n` turns in which every command succeeds. -/
def qedSendQmStopCmd (isReleaseCmd isTxPq : Bool) (start num : ℕ) : ℕ → QmStop :=
  Loop.run (Ended (lastPq start num)) (turn isReleaseCmd (lastPq start num)) (fun _ => true)
    ⟨start, 0, 0, setField32 0 1 24 (if isTxPq then 0 else 1), [], false⟩

def groupId (cmd : BitVec 32 × BitVec 32) : ℕ := (cmd.2 >>> 16 &&& 15).toNat

def pauses (q : ℕ) (cmd : BitVec 32 × BitVec 32) : Bool :=
  decide (groupId cmd = q / 32) && cmd.1.getLsbD (q % 32)

/-- The call returns after at most `num_pqs` turns, just the PQs of the range are paused, each by
one command, and a release sends an empty mask to the same groups. -/
def Covers (isTxPq : Bool) (start num : ℕ) : Prop :=
  ∃ n ≤ num, let s := qedSendQmStopCmd false isTxPq start num n
    let r := qedSendQmStopCmd true isTxPq start num n
    (s.failed = false ∧ s.Ended (lastPq start num)) ∧
      (∀ q, s.sent.countP (pauses q) = if start ≤ q ∧ q < start + num then 1 else 0) ∧
      (r.failed = false ∧ r.Ended (lastPq start num)) ∧ r.sent = s.sent.map fun c => (0, c.2)

/-! ## Releases -/

/-- What a release has done when a stop command has come to `s`. -/
def released (s : QmStop) : QmStop :=
  { s with pqMask := 0, lsb := 0, sent := s.sent.map fun c => (0, c.2) }

theorem turn_released : turn true last s.released true = (turn false last s true).released := by
  simp only [turn, released, Bool.false_eq_true, if_true, if_false]
  split
  · simp [setField32]
  · rfl

theorem release_eq (n : ℕ) : qedSendQmStopCmd true isTxPq start num n =
    (qedSendQmStopCmd false isTxPq start num n).released := by
  induction n with
  | zero => rfl
  | succ n ih =>
    rw [qedSendQmStopCmd, Loop.run, ← qedSendQmStopCmd, ih, turn_released]
    exact (apply_ite released ..).symm

/-! ## One turn -/

/-- The command of a turn is one for the group of the PQ. -/
theorem groupId_setField (mask msb : BitVec 32) {g : ℕ} (hg : g < 16) :
    groupId (mask, setField32 msb 15 16 (.ofNat 32 g)) = g := by
  have hbits : setField32 msb 15 16 (.ofNat 32 g) >>> 16 &&& 15 = .ofNat 32 g &&& 15#32 := by
    ext i hi
    interval_cases i <;> simp [setField32]
  rw [groupId, hbits]
  interval_cases g <;> rfl

/-- The PQ is in the mask that the next command of its group will have. -/
def collected (s : QmStop) (q : ℕ) : Bool :=
  decide (q / 32 = s.pqId / 32) && s.pqMask.getLsbD (q % 32)

/-- After `k` turns, each PQ that was gone over is in one command, or in the mask. -/
structure Inv (start num k : ℕ) (s : QmStop) : Prop where
  pqId : s.pqId = start + k
  failed : s.failed = false
  once : ∀ q, s.sent.countP (pauses q) + (s.collected q).toNat =
    if start ≤ q ∧ q < start + k then 1 else 0
  done : k = num → s.pqMask = 0

variable {k : ℕ}

theorem Inv.collect (h : Inv start num k s) (q : ℕ) :
    s.sent.countP (pauses q) +
        (collected { s with pqMask := s.pqMask ||| 1#32 <<< (s.pqId % 32) } q).toNat =
      if start ≤ q ∧ q < start + (k + 1) then 1 else 0 := by
  have hq := h.once q
  by_cases hword : q / 32 = s.pqId / 32
  · have hbit : (1#32 <<< (s.pqId % 32)).getLsbD (q % 32) = decide (q = start + k) := by
      rw [← h.pqId]
      exact getLsbD_one_shiftLeft (by decide) hword
    simp only [collected, hword, decide_true, Bool.true_and, getLsbD_or, hbit] at hq ⊢
    by_cases heq : q = start + k
    · -- the bit of the next PQ is not yet set
      rw [if_neg (by omega)] at hq
      have hbit : s.pqMask.getLsbD (q % 32) = false := by
        rw [← Bool.toNat_eq_zero]
        omega
      rw [hbit, decide_eq_true heq, if_pos (by omega)]
      change _ + 1 = 1
      omega
    · simp only [heq, decide_false, Bool.or_false, hq]
      split_ifs <;> omega
  · have hne : q ≠ start + k := by
      rintro rfl
      exact hword (congrArg (· / _) h.pqId.symm)
    simp only [collected, hword, decide_false, Bool.false_and] at hq ⊢
    rw [hq]
    split_ifs <;> omega

theorem Inv.turn (h : Inv start num k s) (hle : start + num ≤ 512) (hk : k < num) :
    Inv start num (k + 1) (turn false (start + num - 1) s true) := by
  have hid : (s.pqId + 1) % 2 ^ 32 = start + (k + 1) := by
    have := h.pqId
    omega
  have hlt : s.pqId / 32 < 16 := by
    rw [h.pqId]
    omega
  have hcollect := h.collect
  simp only [QmStop.turn, QM_STOP_PQ_MASK_WIDTH, Bool.false_eq_true, if_false, if_true]
  generalize s.pqMask ||| 1#32 <<< (s.pqId % 32) = mask at hcollect ⊢
  split
  case isTrue =>
    refine ⟨hid, rfl, fun q => ?_, fun _ => rfl⟩
    have hpauses : pauses q (setField32 s.lsb (allOnes 32) 0 mask,
        setField32 s.msb 15 16 (.ofNat 32 (s.pqId / 32))) =
          collected { s with pqMask := mask } q := by
      have hlsb : setField32 s.lsb (allOnes 32) 0 mask = mask := by
        rw [setField32, shiftLeft_zero, not_allOnes, and_zero, zero_or, and_allOnes, shiftLeft_zero]
      simp only [pauses, groupId_setField _ _ hlt, collected, hlsb, eq_comm]
    rw [← hcollect q, countP_append, countP_singleton, hpauses]
    simp [collected, Bool.toNat]
  case isFalse hmid =>
    obtain ⟨hlast, hedge⟩ := not_or.1 hmid
    refine ⟨hid, h.failed, fun q => ?_, fun hdone => ?_⟩
    · have hword : (s.pqId + 1) % 2 ^ 32 / 32 = s.pqId / 32 := by
        rw [hid, ← Nat.add_assoc, ← h.pqId]
        omega
      rw [← hcollect q]
      simp only [collected, hword]
    · have := h.pqId
      omega

/-- **The stop command covers the range**, just if it is not the empty range at PQ 0. -/
theorem qm_stop_covers_iff (hle : start + num ≤ 512) :
    Covers isTxPq start num ↔ start ≠ 0 ∨ num ≠ 0 := by
  constructor
  · rintro ⟨n, hn, ⟨-, hend⟩, -⟩
    by_contra hzero
    obtain ⟨rfl, rfl⟩ : start = 0 ∧ num = 0 := by omega
    obtain rfl := Nat.le_zero.1 hn
    exact hend.elim Bool.false_ne_true (Nat.not_lt_zero _)
  · intro hpos
    have hlast : lastPq start num = start + num - 1 :=
      Word.sub_of_le_of_lt (by omega) (by omega)
    have hinv : Inv start num num (qedSendQmStopCmd false isTxPq start num num) := by
      refine Loop.track (P := Inv start num) ⟨rfl, rfl, fun q => ?_, fun _ => rfl⟩
        fun k hk t ht => ?_
      · have hnone : ¬ (start ≤ q ∧ q < start + 0) := by omega
        simp [collected]
      · rw [hlast]
        refine ⟨?_, ht.turn hle hk⟩
        rintro (hfail | hlt)
        · exact Bool.false_ne_true (ht.failed.symm.trans hfail)
        · rw [ht.pqId] at hlt
          omega
    have hend : Ended (lastPq start num) (qedSendQmStopCmd false isTxPq start num num) := by
      right
      rw [hlast, hinv.pqId]
      omega
    refine ⟨num, le_rfl, ⟨hinv.failed, hend⟩, fun q => ?_, ?_⟩
    · rw [← hinv.once q, collected, hinv.done rfl]
      simp
    · rw [release_eq]
      exact ⟨⟨hinv.failed, hend⟩, rfl⟩

theorem qm_stop_covers_three : Covers true 30 3 := (qm_stop_covers_iff (by decide)).2 (by decide)

/-- No PQs from PQ 0 on: the loop never ends. -/
theorem not_qm_stop_ends : ¬ ∃ n, Ended (lastPq 0 0) (qedSendQmStopCmd false true 0 0 n) := by
  rintro ⟨n, hend⟩
  have hgoes : ∀ t : QmStop, t.failed = false ∧ t.pqId < 2 ^ 32 → ¬ Ended (lastPq 0 0) t := by
    rintro t ⟨hok, hlt⟩ (hfail | hlast)
    · exact Bool.false_ne_true (hok.symm.trans hfail)
    · change 2 ^ 32 - 1 < t.pqId at hlast
      omega
  refine hgoes _ ?_ hend
  refine Loop.track (P := fun _ (t : QmStop) => t.failed = false ∧ t.pqId < 2 ^ 32)
    ⟨rfl, by decide⟩ fun i _ t ht => ?_
  refine ⟨hgoes t ht, ?_⟩
  have hlt : (t.pqId + 1) % 2 ^ 32 < 2 ^ 32 := Nat.mod_lt _ (by decide)
  rw [turn]
  split
  · exact ⟨rfl, hlt⟩
  · exact ⟨ht.1, hlt⟩

end QmStop

end FastLinQ.Qed
