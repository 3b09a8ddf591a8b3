import FastLinQ.Foundations.Bitmap
import FastLinQ.Qed.Iov.Vf

/-!
# Function-level resets of VFs

The management firmware names the VFs that were reset in a bitmap of absolute numbers.
`qed_iov_mark_vf_flr` marks them in `pending_flr`, a bitmap of numbers relative to the PF;
`qed_iov_vf_flr_cleanup` then cleans each of them up and acknowledges it. A VF whose final cleanup
fails, or that cannot be enabled again, is left out: its mark stays and it is not acknowledged.
-/

namespace FastLinQ.Qed

open Bitmap Function List

def MAX_NUM_VFS : ℕ := 192
def VF_BITMAP_SIZE_IN_DWORDS : ℕ := MAX_NUM_VFS / 32

/-- What a reset reads: the VFs of the PF, with their numbers on the device, and `b_init`. -/
structure FlrIov where
  firstVfInPf : ℕ
  totalVfs : ℕ
  ids : firstVfInPf + totalVfs ≤ MAX_NUM_VFS
  init : ℕ → Bool

structure FlrState where
  state : ℕ → VfState
  pendingFlr : ℕ → BitVec 64
  /-- `vf_mbx.b_pending_msg` -/
  pendingMsg : ℕ → Bool

/-- Whether the steps on the hardware succeed for a VF. -/
structure FlrOutcome where
  poll : Bool
  finalCleanup : Bool
  enableAccess : Bool
  deriving DecidableEq

namespace FlrIov

variable (c : FlrIov)

def absVfId (relVfId : ℕ) : ℕ := (relVfId + c.firstVfInPf) % 2 ^ 8

/-- A turn of the loop of `qed_iov_mark_vf_flr`. -/
def mark (disabledVfs : ℕ → BitVec 32) (s : FlrState) (i : ℕ) : FlrState :=
  if test disabledVfs (c.absVfId i) then
    { s with state := update s.state i .reset, pendingFlr := set s.pendingFlr i }
  else s

def qedIovMarkVfFlr (disabledVfs : ℕ → BitVec 32) (s : FlrState) : FlrState :=
  (range c.totalVfs).foldl (c.mark disabledVfs) s

/-- The end of `qed_iov_execute_vf_flr_cleanup`, from `cleanup` on. -/
def acknowledge (relVfId : ℕ) (s : FlrState) (ackVfs : ℕ → BitVec 32) :
    FlrState × (ℕ → BitVec 32) :=
  ({ state := if s.state relVfId = .reset then update s.state relVfId .stopped else s.state
     pendingFlr := clear s.pendingFlr relVfId
     pendingMsg := update s.pendingMsg relVfId false }, set ackVfs (c.absVfId relVfId))

/-- `qed_iov_execute_vf_flr_cleanup`, for a VF of the PF. -/
def qedIovExecuteVfFlrCleanup (o : FlrOutcome) (relVfId : ℕ) (s : FlrState)
    (ackVfs : ℕ → BitVec 32) : FlrState × (ℕ → BitVec 32) :=
  if relVfId < MAX_NUM_VFS ∧ test s.pendingFlr relVfId then
    if c.init relVfId = false then c.acknowledge relVfId s ackVfs
    else if o.poll = false then c.acknowledge relVfId s ackVfs
    else if o.finalCleanup = false then (s, ackVfs)
    else
      let s := { s with state := update s.state relVfId .stopped }
      if o.enableAccess = false then (s, ackVfs) else c.acknowledge relVfId s ackVfs
  else (s, ackVfs)

/-- `qed_iov_vf_flr_cleanup`, with the bitmap that is sent to the firmware. -/
def qedIovVfFlrCleanup (o : ℕ → FlrOutcome) (s : FlrState) : FlrState × (ℕ → BitVec 32) :=
  let r := (range c.totalVfs).foldl
    (fun r i => c.qedIovExecuteVfFlrCleanup (o i) i r.1 r.2) (s, fun _ => 0)
  (r.1, fun i => if i < VF_BITMAP_SIZE_IN_DWORDS then r.2 i else 0)

/-! ## Marking -/

/-- The VF is named in the bitmap, or its mark is left from before. -/
def Marked (disabledVfs : ℕ → BitVec 32) (s : FlrState) (i : ℕ) : Prop :=
  i < c.totalVfs ∧ (test s.pendingFlr i ∨ test disabledVfs (c.absVfId i))

theorem test_foldl_mark (d : ℕ → BitVec 32) (l : List ℕ) (s : FlrState) (v : ℕ) :
    test (l.foldl (c.mark d) s).pendingFlr v ↔
      test s.pendingFlr v ∨ v ∈ l ∧ test d (c.absVfId v) := by
  induction l generalizing s with
  | nil => simp
  | cons i l ih =>
    rw [foldl_cons, ih, mark]
    split
    · rw [test_set (by decide), Bool.or_eq_true]
      grind
    · grind

/-! ## Acknowledging -/

/-- The steps that are taken for a VF do not fail after the poll. -/
def Handled (o : ℕ → FlrOutcome) (i : ℕ) : Prop :=
  c.init i → (o i).poll → (o i).finalCleanup ∧ (o i).enableAccess

variable {c} {o : ℕ → FlrOutcome} {i : ℕ}

theorem execute_spec (hi : i < MAX_NUM_VFS) (s : FlrState) (ack : ℕ → BitVec 32) (v : ℕ) :
    let r := c.qedIovExecuteVfFlrCleanup (o i) i s ack
    (test r.1.pendingFlr v ↔ test s.pendingFlr v ∧ ¬ (v = i ∧ c.Handled o i)) ∧
      (test r.2 v ↔ test ack v ∨ test s.pendingFlr i ∧ c.Handled o i ∧ v = c.absVfId i) := by
  have hack : ∀ t : FlrState,
      (test (c.acknowledge i t ack).1.pendingFlr v ↔ test t.pendingFlr v ∧ v ≠ i) ∧
        (test (c.acknowledge i t ack).2 v ↔ test ack v ∨ v = c.absVfId i) := by
    intro t
    rw [acknowledge, test_clear (by decide), test_set (by decide)]
    simp
  rw [qedIovExecuteVfFlrCleanup, Handled]
  split
  · rename_i hp
    cases hinit : c.init i <;> cases hpoll : (o i).poll <;> cases hfinal : (o i).finalCleanup <;>
      cases henable : (o i).enableAccess <;> simp [hack, hp.2]
  · rename_i hp
    have hclear : test s.pendingFlr i = false := by simpa [hi] using hp
    refine ⟨(and_iff_left_of_imp ?_).symm, ?_⟩
    · rintro hv ⟨rfl, -⟩
      rw [hclear] at hv
      cases hv
    · simp [hclear]

theorem foldl_execute (l : List ℕ) (hl : ∀ i ∈ l, i < MAX_NUM_VFS) (s : FlrState)
    (ack : ℕ → BitVec 32) (v : ℕ) :
    let r := l.foldl (fun r i => c.qedIovExecuteVfFlrCleanup (o i) i r.1 r.2) (s, ack)
    (test r.1.pendingFlr v ↔ test s.pendingFlr v ∧ ¬ (v ∈ l ∧ c.Handled o v)) ∧
      (test r.2 v ↔ test ack v ∨ ∃ i ∈ l, test s.pendingFlr i ∧ c.Handled o i ∧
        v = c.absVfId i) := by
  induction l generalizing s ack with
  | nil => simp
  | cons i l ih =>
    obtain ⟨ihp, iha⟩ := ih (fun j hj => hl j (mem_cons_of_mem _ hj))
      (c.qedIovExecuteVfFlrCleanup (o i) i s ack).1 (c.qedIovExecuteVfFlrCleanup (o i) i s ack).2
    have hspec := execute_spec (c := c) (o := o) (hl i mem_cons_self) s ack
    simp only [(hspec _).1, (hspec _).2] at ihp iha
    refine ⟨ihp.trans ?_, iha.trans ?_⟩
    · rw [and_assoc, and_congr_right_iff]
      intro _
      by_cases hv : v = i
      · subst hv
        tauto
      · simp [hv]
    · rw [or_assoc]
      refine or_congr_right ⟨?_, ?_⟩
      · rintro (⟨hp, hh, hv⟩ | ⟨j, hj, ⟨hp, -⟩, hh, hv⟩)
        · exact ⟨i, mem_cons_self, hp, hh, hv⟩
        · exact ⟨j, mem_cons_of_mem _ hj, hp, hh, hv⟩
      · rintro ⟨j, hj, hp, hh, hv⟩
        by_cases hji : j = i
        · subst hji
          exact .inl ⟨hp, hh, hv⟩
        · exact .inr ⟨j, (mem_cons.1 hj).resolve_left hji, ⟨hp, fun h => hji h.1⟩, hh, hv⟩

theorem absVfId_eq (hi : i < c.totalVfs) : c.absVfId i = i + c.firstVfInPf ∧
    c.absVfId i < MAX_NUM_VFS := by
  have hids := c.ids
  have hmax : MAX_NUM_VFS < 2 ^ 8 := by decide
  have heq : c.absVfId i = i + c.firstVfInPf := Nat.mod_eq_of_lt (by omega)
  omega

/-- The bits that are sent are those of the VFs that were handled, and the other marks stay. -/
theorem cleanup_spec (s : FlrState) (v : ℕ) :
    let r := c.qedIovVfFlrCleanup o s
    (test r.1.pendingFlr v ↔ test s.pendingFlr v ∧ ¬ (v < c.totalVfs ∧ c.Handled o v)) ∧
      (test r.2 v ↔ ∃ i < c.totalVfs, test s.pendingFlr i ∧ c.Handled o i ∧ v = c.absVfId i) := by
  have hids := c.ids
  obtain ⟨hp, ha⟩ := foldl_execute (range c.totalVfs)
    (fun i hi => by rw [mem_range] at hi; omega) s (fun _ => 0) v
  simp only [mem_range] at hp ha
  refine ⟨hp, ?_⟩
  by_cases hv : v / 32 < VF_BITMAP_SIZE_IN_DWORDS
  · simp only [qedIovVfFlrCleanup, test, if_pos hv]
    refine ha.trans (or_iff_right ?_)
    simp [test]
  · -- a word that is not sent
    simp only [qedIovVfFlrCleanup, test, if_neg hv]
    refine iff_of_false (by simp) ?_
    rintro ⟨i, hi, -, -, rfl⟩
    have hlt := (absVfId_eq hi).2
    simp only [VF_BITMAP_SIZE_IN_DWORDS, MAX_NUM_VFS] at hv hlt
    omega

/-- Each marked VF is acknowledged and no longer marked, and no other VF is acknowledged. -/
structure Acknowledged (disabledVfs : ℕ → BitVec 32) (s s' : FlrState)
    (ackVfs : ℕ → BitVec 32) : Prop where
  marked : ∀ i, c.Marked disabledVfs s i → test ackVfs (c.absVfId i) ∧ test s'.pendingFlr i = false
  only : ∀ v, test ackVfs v → ∃ i, c.Marked disabledVfs s i ∧ v = c.absVfId i

/-- **Marked VFs are acknowledged** after the next cleanup, just if no final cleanup and no
re-enabling of a marked VF fails. -/
theorem acknowledged_iff (c : FlrIov) (d : ℕ → BitVec 32) (s : FlrState) (o : ℕ → FlrOutcome) :
    let r := c.qedIovVfFlrCleanup o (c.qedIovMarkVfFlr d s)
    c.Acknowledged d s r.1 r.2 ↔ ∀ i, c.Marked d s i → c.Handled o i := by
  intro r
  have hmark : ∀ i, c.Marked d s i ↔
      i < c.totalVfs ∧ test (c.qedIovMarkVfFlr d s).pendingFlr i := fun i => by
    rw [Marked, qedIovMarkVfFlr, test_foldl_mark, mem_range]
    tauto
  have hspec := cleanup_spec (c := c) (o := o) (c.qedIovMarkVfFlr d s)
  constructor
  · intro h i hi
    obtain ⟨j, hj, -, hhandled, hij⟩ := (hspec _).2.1 (h.marked i hi).1
    have hi' := absVfId_eq hi.1
    have hj' := absVfId_eq hj
    obtain rfl : i = j := by omega
    exact hhandled
  · intro h
    refine ⟨fun i hi => ⟨?_, ?_⟩, fun v hv => ?_⟩
    · exact (hspec _).2.2 ⟨i, hi.1, ((hmark i).1 hi).2, h i hi, rfl⟩
    · rw [← Bool.not_eq_true, (hspec i).1]
      exact fun hp => hp.2 ⟨hi.1, h i hi⟩
    · obtain ⟨i, hi, hp, -, hvi⟩ := (hspec v).2.1 hv
      exact ⟨i, (hmark i).2 ⟨hi, hp⟩, hvi⟩

/-- The only VF is reset, and its final cleanup fails. -/
theorem not_acknowledged_of_finalCleanup :
    let c : FlrIov := ⟨16, 1, by decide, fun _ => true⟩
    let s : FlrState := ⟨fun _ => .enabled, fun _ => 0, fun _ => false⟩
    let d : ℕ → BitVec 32 := fun i => if i = 0 then 0x10000 else 0
    let r := c.qedIovVfFlrCleanup (fun _ => ⟨true, false, true⟩) (c.qedIovMarkVfFlr d s)
    ¬ c.Acknowledged d s r.1 r.2 := by
  intro c s d r h
  have hbit := (h.marked 0 ⟨by decide, .inr (by decide)⟩).1
  exact absurd hbit (by decide)

end FlrIov

end FastLinQ.Qed
