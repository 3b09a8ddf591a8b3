import Mathlib

/-!
# Attentions

The device reports attentions in a status block: `atten_bits` are those that are raised, `atten_ack`
those that the driver has acknowledged. `qed_int_attentions` takes a consistent snapshot of both. A
bit that is new is asserted, and the driver masks its source in the IGU; a known bit that has gone
is deasserted, and the driver unmasks the source again. `known_attn` are the bits in between.

What the handlers do about the cause of an attention is left out, and so are the commands by which
they acknowledge it: the device may answer with any snapshot. Whether an attention is outstanding is
read off the snapshots alone (`Outstanding`): the last one that says something about the bit says
that it is raised.
-/

namespace FastLinQ.Qed

open BitVec

def ATTN_STATE_BITS : BitVec 32 := 0xfff
def ATTN_BITS_MASKABLE : BitVec 32 := 0x3ff

/-- `atten_bits` and `atten_ack` of the status block. -/
structure AttnSnapshot where
  attnBits : BitVec 32
  attnAcks : BitVec 32
  deriving DecidableEq, Repr

structure AttnSys where
  knownAttn : BitVec 16
  /-- `IGU_REG_ATTENTION_ENABLE`: a source is masked if its bit is 0. -/
  attentionEnable : BitVec 32
  deriving DecidableEq, Repr

namespace AttnSys

/-- What `qed_int_sb_attn_setup` and `qed_int_igu_enable_attn` leave. -/
def start : AttnSys := ⟨0, 0xfff⟩

def qedIntAssertion (s : AttnSys) (assertedBits : BitVec 16) : AttnSys where
  attentionEnable :=
    s.attentionEnable &&& ~~~(assertedBits.setWidth 32 &&& ATTN_BITS_MASKABLE)
  knownAttn := s.knownAttn ||| assertedBits

def qedIntDeassertion (s : AttnSys) (deassertedBits : BitVec 16) : AttnSys where
  attentionEnable := s.attentionEnable ||| deassertedBits.setWidth 32 &&& ATTN_BITS_MASKABLE
  knownAttn := s.knownAttn &&& ~~~deassertedBits

/-- The bits that are raised and not acknowledged, and were not known. -/
def assertedBits (s : AttnSys) (snap : AttnSnapshot) : BitVec 16 :=
  (snap.attnBits &&& ~~~snap.attnAcks &&& ATTN_STATE_BITS &&&
    ~~~s.knownAttn.setWidth 32).setWidth 16

/-- The known bits that are acknowledged and no longer raised. -/
def deassertedBits (s : AttnSys) (snap : AttnSnapshot) : BitVec 16 :=
  (~~~snap.attnBits &&& snap.attnAcks &&& ATTN_STATE_BITS &&& s.knownAttn.setWidth 32).setWidth 16

/-- `qed_int_attentions`, with the snapshot that it takes. -/
def qedIntAttentions (s : AttnSys) (snap : AttnSnapshot) : AttnSys :=
  let asserted := s.assertedBits snap
  let deasserted := s.deassertedBits snap
  let s := if asserted ≠ 0 then s.qedIntAssertion asserted else s
  if deasserted ≠ 0 then s.qedIntDeassertion deasserted else s

def after (snaps : List AttnSnapshot) : AttnSys := snaps.foldl qedIntAttentions start

end AttnSys

/-! ## The attentions of a list of snapshots -/

/-- The snapshot says something about bit `i`: it is raised and not acknowledged, or acknowledged
and no longer raised. -/
def AttnSnapshot.Tells (i : ℕ) (snap : AttnSnapshot) : Bool :=
  snap.attnBits.getLsbD i != snap.attnAcks.getLsbD i

/-- Bit `i` is the bit of an attention, and raised in the last snapshot that says something about
it. -/
def Outstanding (i : ℕ) (snaps : List AttnSnapshot) : Bool :=
  ATTN_STATE_BITS.getLsbD i &&
    (snaps.filter (AttnSnapshot.Tells i)).getLast?.any fun snap => snap.attnBits.getLsbD i

theorem outstanding_append (i : ℕ) (snaps : List AttnSnapshot) (snap : AttnSnapshot) :
    Outstanding i (snaps ++ [snap]) =
      if snap.Tells i then ATTN_STATE_BITS.getLsbD i && snap.attnBits.getLsbD i
      else Outstanding i snaps := by
  unfold Outstanding
  by_cases h : snap.Tells i <;> simp [List.filter_append, h]

/-- **The mask discipline** for bit `i`, after the snapshots. -/
structure Disciplined (snaps : List AttnSnapshot) (i : ℕ) : Prop where
  known : (AttnSys.after snaps).knownAttn.getLsbD i = Outstanding i snaps
  masked : ATTN_BITS_MASKABLE.getLsbD i = true →
    (AttnSys.after snaps).attentionEnable.getLsbD i = !Outstanding i snaps
  /-- A bit is asserted when it is raised, unless it is outstanding. -/
  asserted : ∀ snap, ((AttnSys.after snaps).assertedBits snap).getLsbD i =
    (!Outstanding i snaps && Outstanding i (snaps ++ [snap]))
  /-- A bit is deasserted when it is gone, if it was outstanding. -/
  deasserted : ∀ snap, ((AttnSys.after snaps).deassertedBits snap).getLsbD i =
    (Outstanding i snaps && !Outstanding i (snaps ++ [snap]))

namespace AttnSys

theorem after_append (snaps : List AttnSnapshot) (snap : AttnSnapshot) :
    after (snaps ++ [snap]) = (after snaps).qedIntAttentions snap :=
  List.foldl_append

variable {s : AttnSys} {i : ℕ} (hi : i < 16) (snap : AttnSnapshot)

include hi

theorem assertedBits_getLsbD : (s.assertedBits snap).getLsbD i =
    (ATTN_STATE_BITS.getLsbD i && snap.attnBits.getLsbD i && !snap.attnAcks.getLsbD i &&
      !s.knownAttn.getLsbD i) := by
  have hi' : i < 32 := by omega
  simp only [assertedBits, getLsbD_setWidth, getLsbD_and, getLsbD_not, hi, hi', decide_true,
    Bool.true_and]
  ac_rfl

theorem deassertedBits_getLsbD : (s.deassertedBits snap).getLsbD i =
    (ATTN_STATE_BITS.getLsbD i && !snap.attnBits.getLsbD i && snap.attnAcks.getLsbD i &&
      s.knownAttn.getLsbD i) := by
  have hi' : i < 32 := by omega
  simp only [deassertedBits, getLsbD_setWidth, getLsbD_and, getLsbD_not, hi, hi', decide_true,
    Bool.true_and]
  ac_rfl

omit hi in
/-- A handler that is not called has no bits. -/
theorem attentions_eq : s.qedIntAttentions snap =
    (s.qedIntAssertion (s.assertedBits snap)).qedIntDeassertion (s.deassertedBits snap) := by
  have hassert : ∀ t : AttnSys, t.qedIntAssertion 0 = t := fun t =>
    congrArg₂ mk or_zero and_allOnes
  have hdeassert : ∀ t : AttnSys, t.qedIntDeassertion 0 = t := fun t =>
    congrArg₂ mk and_allOnes or_zero
  unfold qedIntAttentions
  by_cases ha : s.assertedBits snap = 0 <;> by_cases hd : s.deassertedBits snap = 0 <;>
    simp only [ne_eq, ha, hd, not_true_eq_false, not_false_eq_true, if_true, if_false, hassert,
      hdeassert]

/-- **A snapshot**, bit by bit. -/
theorem attentions_known : (s.qedIntAttentions snap).knownAttn.getLsbD i =
    ((s.knownAttn.getLsbD i || (s.assertedBits snap).getLsbD i) &&
      !(s.deassertedBits snap).getLsbD i) := by
  simp [attentions_eq, qedIntAssertion, qedIntDeassertion, hi]

theorem attentions_enable (hmask : ATTN_BITS_MASKABLE.getLsbD i = true) :
    (s.qedIntAttentions snap).attentionEnable.getLsbD i =
      (s.attentionEnable.getLsbD i && !(s.assertedBits snap).getLsbD i ||
        (s.deassertedBits snap).getLsbD i) := by
  have hi' : i < 32 := by omega
  simp only [attentions_eq, qedIntAssertion, qedIntDeassertion, getLsbD_or, getLsbD_and,
    getLsbD_not, getLsbD_setWidth, hi', hmask, decide_true, Bool.true_and, Bool.and_true]

/-- What the two sets are once `known_attn` is what is outstanding. -/
theorem disciplined_of_known {snaps : List AttnSnapshot}
    (known : (after snaps).knownAttn.getLsbD i = Outstanding i snaps)
    (masked : ATTN_BITS_MASKABLE.getLsbD i = true →
      (after snaps).attentionEnable.getLsbD i = !Outstanding i snaps) :
    Disciplined snaps i := by
  have hstate : Outstanding i snaps = true → ATTN_STATE_BITS.getLsbD i = true := fun h =>
    (Bool.and_eq_true_iff.1 h).1
  refine ⟨known, masked, fun snap => ?_, fun snap => ?_⟩
  · rw [assertedBits_getLsbD hi, known, outstanding_append, AttnSnapshot.Tells]
    revert hstate
    cases Outstanding i snaps <;> cases ATTN_STATE_BITS.getLsbD i <;>
      cases snap.attnBits.getLsbD i <;> cases snap.attnAcks.getLsbD i <;> simp
  · rw [deassertedBits_getLsbD hi, known, outstanding_append, AttnSnapshot.Tells]
    revert hstate
    cases Outstanding i snaps <;> cases ATTN_STATE_BITS.getLsbD i <;>
      cases snap.attnBits.getLsbD i <;> cases snap.attnAcks.getLsbD i <;> simp

/-- **One more snapshot** keeps the discipline. -/
theorem disciplined_append {snaps : List AttnSnapshot} (h : Disciplined snaps i) :
    Disciplined (snaps ++ [snap]) i := by
  refine disciplined_of_known hi ?_ fun hmask => ?_
  · rw [after_append, attentions_known hi, h.known, h.asserted, h.deasserted]
    cases Outstanding i snaps <;> cases Outstanding i (snaps ++ [snap]) <;> rfl
  · rw [after_append, attentions_enable hi snap hmask, h.masked hmask, h.asserted, h.deasserted]
    cases Outstanding i snaps <;> cases Outstanding i (snaps ++ [snap]) <;> rfl

theorem disciplined (snaps : List AttnSnapshot) : Disciplined snaps i := by
  have hstart : ∀ i < 16, ATTN_BITS_MASKABLE.getLsbD i = true →
      start.attentionEnable.getLsbD i = true := by decide
  induction snaps using List.reverseRecOn with
  | nil =>
    refine disciplined_of_known hi (by simp [after, start, Outstanding]) fun hmask => ?_
    simpa [after, Outstanding] using hstart i hi hmask
  | append_singleton snaps snap ih => exact disciplined_append hi snap ih

/-- A bit that is outstanding and later is not was deasserted in between. -/
theorem exists_deasserted {before mid : List AttnSnapshot} (hout : Outstanding i before = true)
    (hgone : Outstanding i (before ++ mid) = false) :
    ∃ mid₁ snap mid₂, mid = mid₁ ++ snap :: mid₂ ∧
      ((after (before ++ mid₁)).deassertedBits snap).getLsbD i = true := by
  induction mid generalizing before with
  | nil =>
    rw [List.append_nil, hout] at hgone
    cases hgone
  | cons snap mid ih =>
    cases hnext : Outstanding i (before ++ [snap]) with
    | false =>
      refine ⟨[], snap, mid, rfl, ?_⟩
      rw [List.append_nil, (disciplined hi before).deasserted, hout, hnext]
      rfl
    | true =>
      rw [← List.singleton_append, ← List.append_assoc] at hgone
      obtain ⟨mid₁, snap', mid₂, rfl, hd⟩ := ih hnext hgone
      rw [List.append_assoc] at hd
      exact ⟨snap :: mid₁, snap', mid₂, rfl, hd⟩

end AttnSys

open AttnSys

/-- **Attentions are masked while they are known**: after any snapshots, `known_attn` has the bits
that are outstanding, a source that can be masked is masked exactly for these, no bit of a snapshot
is both asserted and deasserted, and between two assertions of a bit it is deasserted. -/
theorem attentions_disciplined (snaps : List AttnSnapshot) :
    (∀ i < 16, Disciplined snaps i) ∧
      (∀ snap, (after snaps).assertedBits snap &&& (after snaps).deassertedBits snap = 0) ∧
      ∀ i < 16, ∀ first mid snap, ((after snaps).assertedBits first).getLsbD i = true →
        ((after (snaps ++ first :: mid)).assertedBits snap).getLsbD i = true →
        ∃ mid₁ snap' mid₂, mid = mid₁ ++ snap' :: mid₂ ∧
          ((after (snaps ++ first :: mid₁)).deassertedBits snap').getLsbD i = true := by
  refine ⟨fun i hi => disciplined hi snaps, fun snap => eq_of_getLsbD_eq fun i hi => ?_,
    fun i hi first mid snap h₁ h₂ => ?_⟩
  · change _ = (0#16).getLsbD i
    rw [getLsbD_and, getLsbD_zero, (disciplined hi snaps).asserted,
      (disciplined hi snaps).deasserted]
    cases Outstanding i snaps <;> cases Outstanding i (snaps ++ [snap]) <;> rfl
  · rw [(disciplined hi snaps).asserted, Bool.and_eq_true_iff] at h₁
    rw [(disciplined hi _).asserted, Bool.and_eq_true_iff, Bool.not_eq_true'] at h₂
    rw [← List.singleton_append, ← List.append_assoc] at h₂
    obtain ⟨mid₁, snap', mid₂, hmid, hd⟩ := exists_deasserted hi h₁.2 h₂.1
    rw [List.append_assoc] at hd
    exact ⟨mid₁, snap', mid₂, hmid, hd⟩

end FastLinQ.Qed
