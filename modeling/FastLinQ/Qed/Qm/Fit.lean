import FastLinQ.Qed.Qm.Create

/-!
# Scheduler resources never overflow

The functions that count PQs, vports and RLs agree with the functions that create them. So if
`qed_init_qm_features` succeeds, `qed_init_qm_info` stays within the resources, and the getters find
the PQs that were created for their purpose.

The counts are kept in 16 bits, and that of the multi-TC PQs in 8 bits. `QmHwfn.Narrow` says that
they do not wrap around: there are fewer than 128 TCs, and at most `2^15` VFs and RLs or vports. The
driver uses 1 or 4 TCs, and the hardware has some hundred of each resource.
-/

namespace FastLinQ.Qed

open Nat Bool Prod PciPersonality

/-- The counts fit their types. -/
structure QmHwfn.Narrow (h : QmHwfn) : Prop where
  tcs : h.numHwTc < 128
  rls : min h.rl.num h.vport.num ≤ 2 ^ 15
  vfs : h.totalVfs ≤ 2 ^ 15

/-! ## Flags -/

section Counts

variable {h : QmHwfn}

/-- The personalities that `qed_get_pq_flags` knows. -/
def PciPersonality.hasPqs : PciPersonality → Bool
  | .ethRdma | .default => false
  | .eth | .fcoe | .iscsi | .ethRoce | .ethIwarp => true

theorem flags_rls (h : QmHwfn) :
    qedGetPqFlags h .rls = (h.personality.hasPqs && (h.bEnDcqcn || h.bEnPacing)) := by
  unfold qedGetPqFlags
  cases h.personality <;> simp [beq_eq_decide, hasPqs]

theorem flags_vfs (h : QmHwfn) :
    qedGetPqFlags h .vfs = (h.personality.hasPqs && qedInitQmGetNumActiveVfs h != 0) := by
  unfold qedGetPqFlags
  cases h.personality <;> simp [beq_eq_decide, hasPqs]

theorem vfs_of_vfr (hf : qedGetPqFlags h .vfr = true) :
    qedGetPqFlags h .vfs = true ∧ qedGetPqFlags h .vsr = false := by
  simp only [qedGetPqFlags] at hf ⊢
  cases hp : h.personality <;> simp_all

theorem vfs_of_vsr (hf : qedGetPqFlags h .vsr = true) : qedGetPqFlags h .vfs = true := by
  simp only [qedGetPqFlags] at hf ⊢
  cases hp : h.personality <;> simp_all

theorem grp_unset (h : QmHwfn) : qedGetPqFlags h .grp = false := by
  simp only [qedGetPqFlags]
  cases h.personality <;> simp

theorem activeVfs_pos (hf : qedGetPqFlags h .vfs = true) : 0 < qedInitQmGetNumActiveVfs h := by
  rw [flags_vfs] at hf
  exact pos_of_ne_zero (by simpa using (and_eq_true_iff.1 hf).2)

/-! ## Counts -/

theorem flagged_le (h : QmHwfn) (flag : PqFlag) (n : ℕ) : flagged h flag n ≤ n := by
  unfold flagged
  split <;> omega

theorem activeVfs_lt (h : QmHwfn) : qedInitQmGetNumActiveVfs h < 2 ^ 8 := by
  unfold qedInitQmGetNumActiveVfs
  split
  · exact h.maxActiveVfs_lt
  · exact Nat.two_pow_pos 8

section

variable (hN : h.Narrow)

include hN

/-- The RLs of the PF, those of all VFs and the default one are within the resources. -/
theorem numPfRls_le :
    qedInitQmGetNumPfRls h = 0 ∨
      qedInitQmGetNumPfRls h + (qedInitQmGetNumVfs h + 1) ≤ min h.rl.num h.vport.num := by
  have hrls := hN.rls
  have hmod : min h.rl.num h.vport.num % 2 ^ 16 = min h.rl.num h.vport.num :=
    mod_eq_of_lt (by omega)
  simp only [qedInitQmGetNumPfRls, NUM_DEFAULT_RLS, hmod]
  split
  · exact .inl rfl
  · rename_i hle
    split
    · split
      · exact .inl rfl
      · rename_i hpos
        have := log2_self_le hpos
        exact .inr (by omega)
    · exact .inr (by omega)

theorem numVfs_le : qedInitQmGetNumVfs h ≤ 2 ^ 15 := by
  have := hN.vfs
  unfold qedInitQmGetNumVfs
  split <;> omega

theorem numVports_eq :
    qedInitQmGetNumVports h = 1 + flagged h .rls (qedInitQmGetNumPfRls h) +
      flagged h .vfs (qedInitQmGetNumVfs h) := by
  have hrls := hN.rls
  have hvfs := numVfs_le hN
  have h₁ := flagged_le h .rls (qedInitQmGetNumPfRls h)
  have h₂ := flagged_le h .vfs (qedInitQmGetNumVfs h)
  have hpf := numPfRls_le hN
  exact mod_eq_of_lt (by omega)

theorem numRls_eq :
    qedInitQmGetNumRls h = flagged h .rls (qedInitQmGetNumPfRls h) +
      flagged h .vfs (qedInitQmGetNumActiveVfs h) + flagged h .vfr (qedInitQmGetNumActiveVfs h) +
      flagged h .vsr 1 := by
  have hrls := hN.rls
  have hact := activeVfs_lt h
  have h₁ := flagged_le h .rls (qedInitQmGetNumPfRls h)
  have h₂ := flagged_le h .vfs (qedInitQmGetNumActiveVfs h)
  have h₃ := flagged_le h .vfr (qedInitQmGetNumActiveVfs h)
  have h₄ := flagged_le h .vsr 1
  have hpf := numPfRls_le hN
  exact mod_eq_of_lt (by omega)

theorem numMtcTcs_lt : qedInitQmGetNumMtcTcs h < 128 := by
  have := hN.tcs
  unfold qedInitQmGetNumMtcTcs
  split
  · exact this
  · omega

theorem numMtcPqs_eq : qedInitQmGetNumMtcPqs h = numMtcPorts h * qedInitQmGetNumMtcTcs h := by
  have htcs := numMtcTcs_lt hN
  refine mod_eq_of_lt ?_
  unfold numMtcPorts
  split
  · rw [LAG_MAX_PORT_NUM]
    omega
  · omega

end

/-- The PQs of the VFs: one for each VF, with `PQ_FLAGS_VFR` two, and with `PQ_FLAGS_VSR` one for
all. -/
theorem flagged_numVfsPqs (h : QmHwfn) :
    flagged h .vfs (qedInitQmGetNumVfsPqs h) =
      flagged h .vfs (qedInitQmGetNumActiveVfs h * qedQmGetPqsPerVf h) + flagged h .vsr 1 := by
  have hact := activeVfs_lt h
  have hmod : qedInitQmGetNumVfsPqs h = qedInitQmGetNumActiveVfs h +
      flagged h .vfr (qedInitQmGetNumActiveVfs h) + flagged h .vsr 1 := by
    have h₁ := flagged_le h .vfr (qedInitQmGetNumActiveVfs h)
    have h₂ := flagged_le h .vsr 1
    exact mod_eq_of_lt (by omega)
  cases hvfs : qedGetPqFlags h .vfs with
  | false =>
    have hvsr : qedGetPqFlags h .vsr = false := by
      by_contra hc
      rw [vfs_of_vsr (not_eq_false _ ▸ hc)] at hvfs
      cases hvfs
    rw [flagged_of_unset hvfs, flagged_of_unset hvfs, flagged_of_unset hvsr]
  | true =>
    rw [flagged_of_set hvfs, flagged_of_set hvfs, hmod, qedQmGetPqsPerVf]
    cases hvfr : qedGetPqFlags h .vfr with
    | false =>
      rw [flagged_of_unset hvfr, if_neg Bool.false_ne_true, add_zero, mul_one]
    | true =>
      rw [flagged_of_set hvfr, if_pos rfl, mul_two]

/-- The RLs of the VFs: one for each of their PQs. -/
theorem flagged_vfRls (h : QmHwfn) :
    flagged h .vfs (qedInitQmGetNumActiveVfs h * qedQmGetPqsPerVf h) =
      flagged h .vfs (qedInitQmGetNumActiveVfs h) +
        flagged h .vfr (qedInitQmGetNumActiveVfs h) := by
  cases hvfr : qedGetPqFlags h .vfr with
  | false =>
    rw [qedQmGetPqsPerVf, hvfr, if_neg Bool.false_ne_true, mul_one, flagged_of_unset hvfr, add_zero]
  | true =>
    have hvfs := (vfs_of_vfr hvfr).1
    rw [qedQmGetPqsPerVf, hvfr, if_pos rfl, mul_two, flagged_of_set hvfr, flagged_of_set hvfs,
      flagged_of_set hvfs]

theorem numPqs_eq (hN : h.Narrow) :
    qedInitQmGetNumPqs h =
      flagged h .mcos (qedInitQmGetNumTcs h) + flagged h .lb 1 + flagged h .ooo 1 +
        flagged h .ack 1 + flagged h .ofld (numMtcPorts h * qedInitQmGetNumMtcTcs h) +
        flagged h .llt (numMtcPorts h * qedInitQmGetNumMtcTcs h) +
        flagged h .rls (qedInitQmGetNumPfRls h) + flagged h .vsr 1 +
        flagged h .vfs (qedInitQmGetNumActiveVfs h * qedQmGetPqsPerVf h) := by
  have hrls := hN.rls
  have hact := activeVfs_lt h
  have hmtc : qedInitQmGetNumMtcPqs h < 2 ^ 8 := mod_lt _ (Nat.two_pow_pos 8)
  have htcs : qedInitQmGetNumTcs h < 2 ^ 8 := h.numHwTc_lt
  have hper : qedQmGetPqsPerVf h ≤ 2 := by
    unfold qedQmGetPqsPerVf
    split <;> omega
  have hvf : qedInitQmGetNumActiveVfs h * qedQmGetPqsPerVf h ≤ qedInitQmGetNumActiveVfs h * 2 :=
    mul_le_mul_left _ hper
  have hpf := numPfRls_le hN
  have h₁ := flagged_le h .mcos (qedInitQmGetNumTcs h)
  have h₂ := flagged_le h .lb 1
  have h₃ := flagged_le h .ooo 1
  have h₄ := flagged_le h .ack 1
  have h₅ := flagged_le h .ofld (qedInitQmGetNumMtcPqs h)
  have h₆ := flagged_le h .llt (qedInitQmGetNumMtcPqs h)
  have h₇ := flagged_le h .rls (qedInitQmGetNumPfRls h)
  have h₈ := flagged_le h .vsr 1
  have h₉ := flagged_le h .vfs (qedInitQmGetNumActiveVfs h * qedQmGetPqsPerVf h)
  rw [← numMtcPqs_eq hN, qedInitQmGetNumPqs, flagged_numVfsPqs, flagged_of_unset (grp_unset h)]
  omega

/-! ## Features -/

/-- The loop switches features off until the counts fit. -/
theorem featuresLoop_spec {n : ℕ} {h' : QmHwfn} (hl : qmFeaturesLoop n h = (h', true)) :
    ∃ x y, h' = { h with vfRdmaEn := x, multiTcRoceEn := y } ∧ qmExceeds h' = false := by
  induction n generalizing h with
  | zero =>
    obtain ⟨rfl, hex⟩ := mk.inj hl
    exact ⟨_, _, rfl, by simpa using hex⟩
  | succ n ih =>
    unfold qmFeaturesLoop at hl
    split at hl
    · rename_i hex
      obtain rfl := (mk.inj hl).1
      exact ⟨_, _, rfl, hex⟩
    · split at hl
      · obtain ⟨x, y, rfl, hex⟩ := ih hl
        exact ⟨x, y, rfl, hex⟩
      · split at hl
        · obtain ⟨x, y, rfl, hex⟩ := ih hl
          exact ⟨x, y, rfl, hex⟩
        · cases (mk.inj hl).2

/-- Without RLs for the PF there are none after DCQCN is switched off either. -/
theorem numPfRls_noDcqcn (hpf : qedInitQmGetNumPfRls h = 0) :
    qedInitQmGetNumPfRls { h with bEnDcqcn := false } = 0 := by
  have hvfs : qedInitQmGetNumVfs { h with bEnDcqcn := false } = qedInitQmGetNumVfs h := rfl
  simp only [qedInitQmGetNumPfRls, hvfs, false_eq_true, if_false] at hpf ⊢
  split
  · rfl
  · rename_i hle
    rw [if_neg hle] at hpf
    split at hpf
    · split at hpf
      · assumption
      · exact absurd hpf (Nat.two_pow_pos _).ne'
    · exact hpf

/-- Neither VF RDMA nor multi-TC RoCE changes the need for vports. -/
theorem numVports_features (h : QmHwfn) (x y : Bool) :
    qedInitQmGetNumVports { h with vfRdmaEn := x, multiTcRoceEn := y } =
      qedInitQmGetNumVports h := by
  simp only [qedInitQmGetNumVports, flagged, flags_rls, flags_vfs]
  rfl

/-- Without RLs for the PF, DCQCN takes no vports. -/
theorem numVports_noDcqcn (hpf : qedInitQmGetNumPfRls h = 0) :
    qedInitQmGetNumVports { h with bEnDcqcn := false } = qedInitQmGetNumVports h := by
  simp only [qedInitQmGetNumVports, numPfRls_noDcqcn hpf, hpf, flagged, flags_vfs, ite_self]
  rfl

/-- **What `qed_init_qm_features` leaves**: some features are switched on or off, and the counts fit
the resources. -/
theorem features_spec {h' : QmHwfn} (hf : qedInitQmFeatures h = (h', true)) :
    (∃ x y d, h' = { h with vfRdmaEn := x, multiTcRoceEn := y, bEnDcqcn := d }) ∧
      qedInitQmGetNumVports h' ≤ h'.pq.num ∧ qedInitQmGetNumPqs h' ≤ h'.pq.num ∧
      qedInitQmGetNumRls h' ≤ h'.rl.num := by
  unfold qedInitQmFeatures at hf
  split at hf
  · cases (mk.inj hf).2
  · rename_i hvports
    split at hf
    · cases (mk.inj hf).2
    · -- the vports were counted before the features changed
      obtain ⟨d, hd, hvd⟩ : ∃ d, (if qedInitQmGetNumPfRls h = 0 ∧ h.bEnDcqcn = true then
          { h with bEnDcqcn := false } else h) = { h with bEnDcqcn := d } ∧
          qedInitQmGetNumVports { h with bEnDcqcn := d } = qedInitQmGetNumVports h := by
        split
        · rename_i hpf
          exact ⟨false, rfl, numVports_noDcqcn hpf.1⟩
        · exact ⟨h.bEnDcqcn, rfl, rfl⟩
      rw [hd] at hf
      obtain ⟨e, he⟩ : ∃ e, ∀ b : Bool, (if b = true then
          { h with bEnDcqcn := d, vfRdmaEn := true } else { h with bEnDcqcn := d }) =
          { h with bEnDcqcn := d, vfRdmaEn := e b } :=
        ⟨fun b => if b then true else h.vfRdmaEn, fun b => by cases b <;> rfl⟩
      dsimp only at hf
      rw [he] at hf
      obtain ⟨x, y, rfl, hex⟩ := featuresLoop_spec hf
      refine ⟨⟨x, y, d, rfl⟩, ?_, ?_⟩
      · have := numVports_features { h with bEnDcqcn := d } x y
        rw [hvd] at this
        exact this.trans_le (Nat.le_of_not_lt hvports)
      · simp only [qmExceeds, or_eq_false_iff, decide_eq_false_iff_not, not_lt] at hex
        exact hex

theorem QmHwfn.Narrow.features (hN : h.Narrow) (x y d : Bool) :
    QmHwfn.Narrow { h with vfRdmaEn := x, multiTcRoceEn := y, bEnDcqcn := d } :=
  ⟨hN.tcs, hN.rls, hN.vfs⟩

/-! ## The plan -/

def pfSegments (h : QmHwfn) (q : QmInfo) : List (PqFlag × List PqReq) :=
  [(.rls, rlReqs h), (.mcos, mcosReqs h), (.lb, [⟨.lb, PURE_LB_TC, PQ_INIT_SHARE_VPORT, h.portId⟩]),
    (.ooo, [⟨.ooo, q.oooTc, PQ_INIT_SHARE_VPORT, h.portId⟩]),
    (.ack, [⟨.ack, qedGetOffloadTc h, PQ_INIT_SHARE_VPORT, h.portId⟩]),
    (.ofld, mtcReqs h .ofld), (.llt, mtcReqs h .llt),
    (.grp, q.offloadGroup.mapIdx fun i g => ⟨.grp i, g.1, PQ_INIT_SHARE_VPORT, g.2⟩),
    (.vsr, [⟨.vfRdmaAll, qedGetOffloadTc h, { PQ_INIT_VF_RL with shareVport := true }, h.portId⟩])]

variable {flag : PqFlag}

theorem initQmPqs_same (hi : flag.indexed = true) (l : List PqReq) (q : QmInfo) :
    SameQm q (initQmPqs flag h l q) := (initQmPqs_spec hi l q).1

/-- `qed_init_qm_pq_params` creates the segments of the PF, moves on to the first vport of the VFs,
and creates the PQs of the VFs. -/
theorem pqParams_eq (h : QmHwfn) (q : QmInfo) :
    qedInitQmPqParams h q =
      qedInitQmVfPqs h (qedInitQmAdvanceVport h (addSegments h (pfSegments h q) q)) := by
  have hooo : SameQm q (qedInitQmLbPq h (qedInitQmMcosPqs h (qedInitQmRlPqs h q))) :=
    ((initQmPqs_same rfl _ _).trans (initQmPqs_same rfl _ _)).trans (initQmPqs_same rfl _ _)
  have hgrp : ∀ l, SameQm q (qedInitQmLowLatencyPq h (qedInitQmOffloadPq h (qedInitQmPureAckPq h
      (initQmPqs .ooo h l (qedInitQmLbPq h (qedInitQmMcosPqs h (qedInitQmRlPqs h q))))))) :=
    fun l => (((hooo.trans (initQmPqs_same rfl l _)).trans (initQmPqs_same rfl _ _)).trans
      (initQmPqs_same rfl _ _)).trans (initQmPqs_same rfl _ _)
  unfold qedInitQmPqParams
  dsimp only
  rw [qedInitQmOooPq, hooo.oooTc, qedInitQmOffloadPqGroup, (hgrp _).offloadGroup]
  rfl

variable {l : List PqReq}

theorem nothing_of_share (hl : ∀ x ∈ l, x.init = PQ_INIT_SHARE_VPORT) :
    nVports l = 0 ∧ nRls l = 0 ∧ nPfRls l = 0 := by
  refine ⟨?_, ?_, ?_⟩
  all_goals
    refine List.countP_eq_zero.2 fun x hx => ?_
    simp [PqReq.isRl, hl x hx, PQ_INIT_SHARE_VPORT]

theorem all_of_pfRl (hl : ∀ x ∈ l, x.init = PQ_INIT_PF_RL) :
    nVports l = l.length ∧ nRls l = l.length ∧ nPfRls l = l.length := by
  refine ⟨?_, ?_, ?_⟩
  all_goals
    refine List.countP_eq_length.2 fun x hx => ?_
    simp [PqReq.isRl, hl x hx, PQ_INIT_PF_RL]

theorem mtcReqs_share (h : QmHwfn) (purpose : ℕ → ℕ → PqPurpose) :
    ∀ x ∈ mtcReqs h purpose, x.init = PQ_INIT_SHARE_VPORT := by
  intro x hx
  simp only [mtcReqs, List.mem_flatMap, List.mem_map] at hx
  obtain ⟨i, -, tc, -, rfl⟩ := hx
  rfl

theorem mcosReqs_share (h : QmHwfn) : ∀ x ∈ mcosReqs h, x.init = PQ_INIT_SHARE_VPORT := by
  intro x hx
  obtain ⟨tc, -, rfl⟩ := List.mem_map.1 hx
  rfl

theorem rlReqs_pfRl (h : QmHwfn) : ∀ x ∈ rlReqs h, x.init = PQ_INIT_PF_RL := by
  intro x hx
  obtain ⟨i, -, rfl⟩ := List.mem_map.1 hx
  rfl

theorem length_rlReqs (h : QmHwfn) : (rlReqs h).length = qedInitQmGetNumPfRls h := by
  simp [rlReqs]

theorem length_mcosReqs (h : QmHwfn) : (mcosReqs h).length = qedInitQmGetNumTcs h := by
  simp [mcosReqs]

theorem length_mtcReqs (h : QmHwfn) (purpose : ℕ → ℕ → PqPurpose) :
    (mtcReqs h purpose).length = numMtcPorts h * qedInitQmGetNumMtcTcs h := by
  simp [mtcReqs]

/-- What the segments of the PF take: a vport and an RL for each RL queue, and the RL of the RDMA
queue of all VFs. -/
theorem pfSegments_totals (h : QmHwfn) (q : QmInfo) :
    totalOf h List.length (pfSegments h q) = flagged h .rls (qedInitQmGetNumPfRls h) +
        flagged h .mcos (qedInitQmGetNumTcs h) + flagged h .lb 1 + flagged h .ooo 1 +
        flagged h .ack 1 + flagged h .ofld (numMtcPorts h * qedInitQmGetNumMtcTcs h) +
        flagged h .llt (numMtcPorts h * qedInitQmGetNumMtcTcs h) + flagged h .vsr 1 ∧
      totalOf h nVports (pfSegments h q) = flagged h .rls (qedInitQmGetNumPfRls h) ∧
      totalOf h nRls (pfSegments h q) = flagged h .rls (qedInitQmGetNumPfRls h) + flagged h .vsr 1 ∧
      totalOf h nPfRls (pfSegments h q) = flagged h .rls (qedInitQmGetNumPfRls h) := by
  have hzero : ∀ flag, flagged h flag 0 = 0 := fun flag => ite_self 0
  obtain ⟨r₁, r₂, r₃⟩ := all_of_pfRl (rlReqs_pfRl h)
  obtain ⟨m₁, m₂, m₃⟩ := nothing_of_share (mcosReqs_share h)
  obtain ⟨o₁, o₂, o₃⟩ := nothing_of_share (mtcReqs_share h .ofld)
  obtain ⟨l₁, l₂, l₃⟩ := nothing_of_share (mtcReqs_share h .llt)
  refine ⟨?_, ?_, ?_, ?_⟩
  · simp only [totalOf, pfSegments, List.map_cons, List.map_nil, List.sum_cons, List.sum_nil,
      length_rlReqs, length_mcosReqs, length_mtcReqs, List.length_singleton,
      flagged_of_unset (grp_unset h)]
    omega
  · simp only [totalOf, pfSegments, List.map_cons, List.map_nil, List.sum_cons, List.sum_nil,
      r₁, m₁, o₁, l₁, length_rlReqs, flagged_of_unset (grp_unset h)]
    simp [nVports, PQ_INIT_SHARE_VPORT, hzero]
  · simp only [totalOf, pfSegments, List.map_cons, List.map_nil, List.sum_cons, List.sum_nil,
      r₂, m₂, o₂, l₂, length_rlReqs, flagged_of_unset (grp_unset h)]
    simp [nRls, PqReq.isRl, PQ_INIT_SHARE_VPORT, PQ_INIT_VF_RL, hzero]
  · simp only [totalOf, pfSegments, List.map_cons, List.map_nil, List.sum_cons, List.sum_nil,
      r₃, m₃, o₃, l₃, length_rlReqs, flagged_of_unset (grp_unset h)]
    simp [nPfRls, PQ_INIT_SHARE_VPORT, PQ_INIT_VF_RL, hzero]

/-! ## The queues of the VFs -/

def allVfReqs (h : QmHwfn) : List PqReq :=
  (List.range (qedInitQmGetNumActiveVfs h)).flatMap (vfReqs h)

theorem vfReqs_counts (h : QmHwfn) (i : ℕ) :
    (vfReqs h i).length = qedQmGetPqsPerVf h ∧ nVports (vfReqs h i) = 1 ∧
      nRls (vfReqs h i) = qedQmGetPqsPerVf h ∧ nPfRls (vfReqs h i) = 0 := by
  unfold vfReqs qedQmGetPqsPerVf
  split
  · exact ⟨rfl, rfl, rfl, rfl⟩
  · exact ⟨rfl, rfl, rfl, rfl⟩

theorem countP_allVfReqs (h : QmHwfn) (p : PqReq → Bool) {c : ℕ}
    (hc : ∀ i, (vfReqs h i).countP p = c) :
    (allVfReqs h).countP p = qedInitQmGetNumActiveVfs h * c := by
  have hmap : (List.range (qedInitQmGetNumActiveVfs h)).map (List.countP p ∘ vfReqs h) =
      (List.range (qedInitQmGetNumActiveVfs h)).map fun _ => c :=
    List.map_congr_left fun i _ => hc i
  rw [allVfReqs, List.countP_flatMap, hmap, List.map_const', List.sum_replicate_nat,
    List.length_range]

theorem allVfReqs_counts (h : QmHwfn) :
    (allVfReqs h).length = qedInitQmGetNumActiveVfs h * qedQmGetPqsPerVf h ∧
      nVports (allVfReqs h) = qedInitQmGetNumActiveVfs h ∧
      nRls (allVfReqs h) = qedInitQmGetNumActiveVfs h * qedQmGetPqsPerVf h ∧
      nPfRls (allVfReqs h) = 0 := by
  refine ⟨?_, ?_, ?_, ?_⟩
  · rw [← List.countP_true]
    exact countP_allVfReqs h _ fun i => by rw [List.countP_true]; exact (vfReqs_counts h i).1
  · exact (countP_allVfReqs h _ fun i => (vfReqs_counts h i).2.1).trans (mul_one _)
  · exact countP_allVfReqs h _ fun i => (vfReqs_counts h i).2.2.1
  · exact (countP_allVfReqs h _ fun i => (vfReqs_counts h i).2.2.2).trans (mul_zero _)

/-- Before the last PQ of a list, which has a vport of its own, not all vports are used up. -/
theorem nVports_take_lt {x : PqReq} (hx : x.init.shareVport = false) {k : ℕ}
    (hk : k < (l ++ [x]).length) : nVports ((l ++ [x]).take k) < nVports (l ++ [x]) := by
  rw [List.length_append, List.length_singleton] at hk
  have hone : nVports (l ++ [x]) = nVports l + 1 := by
    rw [nVports, List.countP_append, List.countP_singleton, hx]
    rfl
  rw [List.take_append_of_le_length (by omega), hone]
  exact lt_succ_of_le (nVports_take_le l k)

theorem vfReqs_last (h : QmHwfn) (i : ℕ) :
    ∃ l x, vfReqs h i = l ++ [x] ∧ x.init.shareVport = false := by
  unfold vfReqs
  split
  · exact ⟨[_], _, rfl, rfl⟩
  · exact ⟨[], _, rfl, rfl⟩

theorem allVfReqs_take {k : ℕ} (hk : k < (allVfReqs h).length) :
    nVports ((allVfReqs h).take k) < qedInitQmGetNumActiveVfs h := by
  rw [← (allVfReqs_counts h).2.1]
  cases hact : qedInitQmGetNumActiveVfs h with
  | zero =>
    rw [allVfReqs, hact] at hk
    cases hk
  | succ m =>
    obtain ⟨l, x, hl, hx⟩ := vfReqs_last h m
    have hall : allVfReqs h = (List.range m).flatMap (vfReqs h) ++ l ++ [x] := by
      rw [allVfReqs, hact, List.range_succ, List.flatMap_append, List.flatMap_singleton, hl,
        List.append_assoc]
    rw [hall] at hk ⊢
    exact nVports_take_lt hx hk

/-! ## The whole initialisation -/

variable {a : ℕ → PqParams} {q : QmInfo}

theorem pfSegments_indexed (h : QmHwfn) (q : QmInfo) :
    ∀ s ∈ pfSegments h q, s.1.indexed = true := by
  simp [pfSegments, PqFlag.indexed]

theorem pfSegments_flags (h : QmHwfn) (q : QmInfo) :
    (pfSegments h q).map fst = [.rls, .mcos, .lb, .ooo, .ack, .ofld, .llt, .grp, .vsr] := rfl

theorem Marked.advance {l : List PqPurpose} (m : Marked q flag l) :
    Marked (qedInitQmAdvanceVport h q) flag l := m

theorem Built.advance {n v r f : ℕ} (b : Built h a q n v r f) (hv : v < qedInitQmGetNumVports h) :
    Built h a (qedInitQmAdvanceVport h q) n (v + 1) r f := by
  have hV := numVports_lt h
  refine ⟨b.length, b.numPqs, ?_, b.numRls, b.numPfRls, ?_, b.ilt, b.behind, b.vport, b.rl, b.rank⟩
  · simp only [qedInitQmAdvanceVport, b.numVports]
    exact mod_eq_of_lt (by omega)
  · simp only [qedInitQmAdvanceVport, b.overflow, b.numVports, Bool.false_or,
      decide_eq_false_iff_not]
    omega

/-- **All PQs are created**, as many as were counted, and each flag has its PQs. -/
theorem built_pqParams (hN : h.Narrow) (ha : ∀ i, (a i).rlValid = false)
    (hvf : qedInitQmGetNumActiveVfs h ≤ qedInitQmGetNumVfs h) (b : Built h a q 0 0 0 0) :
    (∃ v f, Built h a (qedInitQmPqParams h q) (qedInitQmGetNumPqs h) v (qedInitQmGetNumRls h) f) ∧
      SameQm q (qedInitQmPqParams h q) ∧
      (∀ s ∈ pfSegments h q, qedGetPqFlags h s.1 = true →
        Marked (qedInitQmPqParams h q) s.1 (s.2.map PqReq.purpose)) ∧
      (qedGetPqFlags h .vfs = true →
        Marked (qedInitQmPqParams h q) .vfs ((allVfReqs h).map PqReq.purpose)) := by
  obtain ⟨t₁, t₂, t₃, t₄⟩ := pfSegments_totals h q
  obtain ⟨c₁, c₂, c₃, c₄⟩ := allVfReqs_counts h
  have hpqs := numPqs_eq hN
  have hvports := numVports_eq hN
  have hrls := numRls_eq hN
  have hpfle := flagged_le h .rls (qedInitQmGetNumPfRls h)
  have hidx := pfSegments_indexed h q
  obtain ⟨bpf, marks⟩ := b.segments ha (pfSegments h q) hidx (by rw [pfSegments_flags]; decide)
    (by omega) (by omega) (by omega)
  have badv := bpf.advance (by omega)
  have hroom : qedGetPqFlags h .vfs = true → ∀ k < (allVfReqs h).length,
      0 + totalOf h nVports (pfSegments h q) + 1 + nVports ((allVfReqs h).take k) <
        qedInitQmGetNumVports h := by
    intro hset k hk
    have := allVfReqs_take hk
    rw [flagged_of_set hset] at hvports
    omega
  have bvf := badv.segment ha (rfl : PqFlag.indexed .vfs = true) (allVfReqs h)
    (by rw [c₁]; omega) hroom
    (by
      rw [c₄]
      have := flagged_le h .vfs 0
      omega)
  have hlen : 0 + totalOf h List.length (pfSegments h q) + flagged h .vfs (allVfReqs h).length =
      qedInitQmGetNumPqs h := by
    rw [c₁]
    omega
  have hcount : 0 + totalOf h nRls (pfSegments h q) + flagged h .vfs (nRls (allVfReqs h)) =
      qedInitQmGetNumRls h := by
    rw [c₃, flagged_vfRls]
    omega
  rw [hlen, hcount] at bvf
  have hsame : SameQm q (qedInitQmAdvanceVport h (addSegments h (pfSegments h q) q)) :=
    (addSegments_same h _ hidx q).trans ⟨rfl, rfl, rfl, rfl, rfl⟩
  rw [pqParams_eq]
  refine ⟨⟨_, _, bvf⟩, hsame.trans (initQmPqs_same rfl _ _), fun s hs hset => ?_, fun hset => ?_⟩
  · refine (marks s hs hset).advance.segment ?_ rfl _
    have hmem : s.1 ∈ (pfSegments h q).map fst := List.mem_map_of_mem hs
    rw [pfSegments_flags] at hmem
    rintro he
    rw [he] at hmem
    exact absurd hmem (by decide)
  · exact badv.marked rfl hset (allVfReqs h)

/-! ## Getters -/

/-- A getter that adds an offset to the index of a flag finds the PQ at that offset. -/
theorem Marked.getter {l : List PqPurpose} (m : Marked q flag l)
    (hset : qedGetPqFlags h flag = true) (hi : flag.indexed = true) (hlen : q.made.length < 2 ^ 16)
    {i : ℕ} (hil : i < l.length) :
    q.made[qedGetQmPqFromCmPq q ((qedGetCmPqIdx h q flag + i) % 2 ^ 16)]? = l[i]? := by
  obtain ⟨pre, post, hmade, hfirst⟩ := m
  have hsum : q.made.length = pre.length + (l.length + post.length) := by
    rw [hmade, List.length_append, List.length_append]
  have hidx : qedInitQmGetIdxFromFlags h q flag = (q.startPq + pre.length) % 2 ^ 16 := by
    rw [qedInitQmGetIdxFromFlags, if_pos (by rw [hasIdx, hset, hi]; rfl), hfirst]
  have hrel : qedGetQmPqFromCmPq q ((qedGetCmPqIdx h q flag + i) % 2 ^ 16) = pre.length + i := by
    rw [qedGetQmPqFromCmPq, qedGetCmPqIdx, Word.sub, Word.sub]
    omega
  rw [hrel, hmade, List.getElem?_append_right (by omega), Nat.add_sub_cancel_left,
    List.getElem?_append_left hil]

/-- The element at a place of lists of the same length, put one after the other. -/
theorem getElem?_flatMap_range {α : Type*} {g : ℕ → List α} {c : ℕ} (hc : ∀ i, (g i).length = c)
    {n i t : ℕ} (hi : i < n) (ht : t < c) : ((List.range n).flatMap g)[i * c + t]? = (g i)[t]? := by
  have hlen : ∀ m, ((List.range m).flatMap g).length = m * c := by
    intro m
    rw [List.length_flatMap, List.map_congr_left fun i _ => hc i, List.map_const',
      List.sum_replicate_nat, List.length_range]
  induction n with
  | zero => omega
  | succ n ih =>
    rw [List.range_succ, List.flatMap_append, List.flatMap_singleton]
    rcases Nat.lt_succ_iff_lt_or_eq.1 hi with hlt | rfl
    · have hle : (i + 1) * c ≤ n * c := mul_le_mul_right c hlt
      rw [succ_mul] at hle
      rw [List.getElem?_append_left (by rw [hlen]; omega)]
      exact ih hlt
    · rw [List.getElem?_append_right (by rw [hlen]; omega), hlen, Nat.add_sub_cancel_left]

theorem vf_purpose (h : QmHwfn) {i t : ℕ} (hi : i < qedInitQmGetNumActiveVfs h)
    (ht : t < qedQmGetPqsPerVf h) :
    ((allVfReqs h).map PqReq.purpose)[i * qedQmGetPqsPerVf h + t]? =
      ((vfReqs h i).map PqReq.purpose)[t]? := by
  rw [allVfReqs, List.map_flatMap]
  exact getElem?_flatMap_range
    (fun i => by rw [List.length_map]; exact (vfReqs_counts h i).1) hi ht

theorem vfReqs_first (h : QmHwfn) (i : ℕ) :
    ((vfReqs h i).map PqReq.purpose)[0]? = some (.vf i) := by
  unfold vfReqs
  split <;> rfl

theorem vfReqs_second (hset : qedGetPqFlags h .vfr = true) (i : ℕ) :
    ((vfReqs h i).map PqReq.purpose)[1]? = some (.vfRdma i) := by
  rw [vfReqs, if_pos hset]
  rfl

end Counts

/-- What the initialisation leaves: everything is within the resources, and the getters find PQs
that were created for their purpose. The `vport_id` and `rl_id` are 16-bit numbers. -/
structure QmFits (h : QmHwfn) (q q' : QmInfo) : Prop where
  overflow : q'.pqOverflow = false
  numPqs : q'.numPqs = qedInitQmGetNumPqs h
  made : q'.made.length = q'.numPqs
  le_num : q'.numPqs ≤ h.pq.num
  writes : ∀ i, h.pq.num ≤ i → q'.qmPqParams i = q.qmPqParams i
  startVport : q'.startVport = h.pq.start % 2 ^ 16
  startRl : q'.startRl = h.rl.start % 2 ^ 16
  vport : ∀ i < q'.numPqs, ∃ j < h.pq.num, (q'.qmPqParams i).vportId = (q'.startVport + j) % 2 ^ 16
  rl : ∀ i < q'.numPqs, (q'.qmPqParams i).rlValid = true → ∃ j < h.rl.num,
    (q'.qmPqParams i).rlId = (q'.startRl + j) % 2 ^ 16
  rl_ne : ∀ i j, i < j → j < q'.numPqs → (q'.qmPqParams i).rlValid = true →
    (q'.qmPqParams j).rlValid = true → (q'.qmPqParams i).rlId ≠ (q'.qmPqParams j).rlId
  mcos : qedGetPqFlags h .mcos = true → ∀ tc < qedInitQmGetNumTcs h,
    q'.made[qedGetQmPqFromCmPq q' (qedGetCmPqIdxTc h q' .mcos tc)]? = some (.mcos tc)
  vf : qedGetPqFlags h .vfs = true → ∀ vf < qedInitQmGetNumActiveVfs h,
    q'.made[qedGetQmPqFromCmPq q' (qedGetCmPqIdxVf h q' vf)]? = some (.vf vf)
  vfRdma : qedGetPqFlags h .vfr = true → ∀ vf < qedInitQmGetNumActiveVfs h,
    q'.made[qedGetQmPqFromCmPq q' (qedGetCmPqIdxVfRdma h q' vf)]? = some (.vfRdma vf)
  vfRdmaAll : qedGetPqFlags h .vsr = true → ∀ vf,
    q'.made[qedGetQmPqFromCmPq q' (qedGetCmPqIdxVfRdma h q' vf)]? = some .vfRdmaAll
  rlPq : qedGetPqFlags h .rls = true → ∀ rl < qedInitQmGetNumPfRls h,
    q'.made[qedGetQmPqFromCmPq q' (qedGetCmPqIdxRl h q' rl)]? = some (.rl rl)
  ofld : qedGetPqFlags h .ofld = true → h.dcqcnEnabled = false → 0 < qedInitQmGetNumMtcTcs h →
    ∀ idx tc, q'.made[qedGetQmPqFromCmPq q' (qedGetCmPqIdxOfldMtc h q' idx tc)]? =
      some (.ofld (idx % numMtcPorts h) (tc % qedInitQmGetNumMtcTcs h))
  llt : qedGetPqFlags h .llt = true → h.dcqcnEnabled = false → 0 < qedInitQmGetNumMtcTcs h →
    ∀ idx tc, q'.made[qedGetQmPqFromCmPq q' (qedGetCmPqIdxLltMtc h q' idx tc)]? =
      some (.llt (idx % numMtcPorts h) (tc % qedInitQmGetNumMtcTcs h))
  dcqcn : qedGetPqFlags h .rls = true → h.dcqcnEnabled = true → ∀ idx < qedInitQmGetNumPfRls h,
    ∀ tc, q'.made[qedGetQmPqFromCmPq q' (qedGetCmPqIdxOfldMtc h q' idx tc)]? = some (.rl idx) ∧
      q'.made[qedGetQmPqFromCmPq q' (qedGetCmPqIdxLltMtc h q' idx tc)]? = some (.rl idx)

section Fits

variable {h : QmHwfn} {q q' : QmInfo}

/-- The getters of the PF's queues and of the VFs' queues, from the marks. -/
theorem mcos_getter (m : Marked q' .mcos ((mcosReqs h).map PqReq.purpose))
    (hset : qedGetPqFlags h .mcos = true) (hlen : q'.made.length < 2 ^ 16) {tc : ℕ}
    (htc : tc < qedInitQmGetNumTcs h) :
    q'.made[qedGetQmPqFromCmPq q' (qedGetCmPqIdxTc h q' .mcos tc)]? = some (.mcos tc) := by
  have hget := m.getter hset rfl hlen (i := tc) (by simpa [mcosReqs] using htc)
  have hidx : qedGetCmPqIdxTc h q' .mcos tc = (qedGetCmPqIdx h q' .mcos + tc) % 2 ^ 16 := by
    rw [qedGetCmPqIdxTc, if_neg (by omega), if_pos rfl, qedGetCmPqIdx, mod_add_mod, add_right_comm]
  rw [hidx, hget]
  simp [mcosReqs, htc]

theorem vf_getter (m : Marked q' .vfs ((allVfReqs h).map PqReq.purpose))
    (hset : qedGetPqFlags h .vfs = true) (hlen : q'.made.length < 2 ^ 16) {vf t : ℕ}
    (hvf : vf < qedInitQmGetNumActiveVfs h) (ht : t < qedQmGetPqsPerVf h) :
    q'.made[qedGetQmPqFromCmPq q' ((qedGetCmPqIdxVf h q' vf + t) % 2 ^ 16)]? =
      ((vfReqs h vf).map PqReq.purpose)[t]? := by
  have hlt : vf * qedQmGetPqsPerVf h + t < ((allVfReqs h).map PqReq.purpose).length := by
    rw [List.length_map, (allVfReqs_counts h).1]
    have hle : (vf + 1) * qedQmGetPqsPerVf h ≤
        qedInitQmGetNumActiveVfs h * qedQmGetPqsPerVf h := mul_le_mul_right _ hvf
    rw [succ_mul] at hle
    omega
  have hidx : (qedGetCmPqIdxVf h q' vf + t) % 2 ^ 16 =
      (qedGetCmPqIdx h q' .vfs + (vf * qedQmGetPqsPerVf h + t)) % 2 ^ 16 := by
    simp only [qedGetCmPqIdxVf, mod_eq_of_lt hvf]
    rw [if_neg (by omega), mod_add_mod, add_assoc]
  rw [hidx, m.getter hset rfl hlen hlt, vf_purpose h hvf ht]

theorem cmPqIdxVf_lt (hset : qedGetPqFlags h .vfs = true) (q' : QmInfo) (vf : ℕ) :
    qedGetCmPqIdxVf h q' vf < 2 ^ 16 := by
  have := activeVfs_pos hset
  simp only [qedGetCmPqIdxVf]
  rw [if_neg (by omega)]
  exact mod_lt _ (Nat.two_pow_pos 16)

theorem rl_getter (m : Marked q' .rls ((rlReqs h).map PqReq.purpose))
    (hset : qedGetPqFlags h .rls = true) (hlen : q'.made.length < 2 ^ 16) {rl : ℕ}
    (hrl : rl < qedInitQmGetNumPfRls h) :
    q'.made[qedGetQmPqFromCmPq q' (qedGetCmPqIdxRl h q' rl)]? = some (.rl rl) := by
  have hget := m.getter hset rfl hlen (i := rl) (by simpa [rlReqs] using hrl)
  have hidx : qedGetCmPqIdxRl h q' rl = (qedGetCmPqIdx h q' .rls + rl) % 2 ^ 16 := by
    simp only [qedGetCmPqIdxRl]
    rw [if_neg (by omega), if_neg (by omega)]
  rw [hidx, hget]
  simp [rlReqs, hrl]

theorem mtc_getter (hN : h.Narrow) {flag : PqFlag} {purpose : ℕ → ℕ → PqPurpose}
    (m : Marked q' flag ((mtcReqs h purpose).map PqReq.purpose))
    (hset : qedGetPqFlags h flag = true) (hi : flag.indexed = true)
    (hlen : q'.made.length < 2 ^ 16) (hd : h.dcqcnEnabled = false)
    (hpos : 0 < qedInitQmGetNumMtcTcs h) (idx tc : ℕ) :
    q'.made[qedGetQmPqFromCmPq q' (getCmPqIdxMtc flag h q' idx tc)]? =
      some (purpose (idx % numMtcPorts h) (tc % qedInitQmGetNumMtcTcs h)) := by
  have hports : 0 < numMtcPorts h := by
    unfold numMtcPorts LAG_MAX_PORT_NUM
    split <;> omega
  have hp := mod_lt idx hports
  have ht := mod_lt tc hpos
  have hlt : idx % numMtcPorts h * qedInitQmGetNumMtcTcs h + tc % qedInitQmGetNumMtcTcs h <
      qedInitQmGetNumMtcPqs h := by
    have hle : (idx % numMtcPorts h + 1) * qedInitQmGetNumMtcTcs h ≤
        numMtcPorts h * qedInitQmGetNumMtcTcs h := mul_le_mul_right _ hp
    rw [succ_mul] at hle
    rw [numMtcPqs_eq hN]
    omega
  have hmtc : qedInitQmGetNumMtcPqs h < 2 ^ 8 := mod_lt _ (Nat.two_pow_pos 8)
  have hoff : qedGetCmPqOffsetMtc h idx tc =
      idx % numMtcPorts h * qedInitQmGetNumMtcTcs h + tc % qedInitQmGetNumMtcTcs h := by
    simp only [qedGetCmPqOffsetMtc]
    rw [mod_eq_of_lt (by omega), if_neg (by omega)]
  have hget := m.getter hset hi hlen (i := qedGetCmPqOffsetMtc h idx tc)
    (by rw [hoff, List.length_map, length_mtcReqs, ← numMtcPqs_eq hN]; exact hlt)
  rw [getCmPqIdxMtc, hd, if_neg Bool.false_ne_true, hget, hoff, mtcReqs, List.map_flatMap,
    getElem?_flatMap_range (fun i => by simp) hp ht]
  simp [ht]

theorem built_start (h : QmHwfn) (hilt : q.iltPfPqs = 0) :
    Built h q.qmPqParams (qedInitQmParams h (qedInitQmResetParams q)) 0 0 0 0 :=
  ⟨rfl, rfl, rfl, rfl, rfl, rfl, hilt, fun _ _ => rfl, nofun, nofun, rfl⟩

/-- If the counts are within the resources, so is what `qed_init_qm_info` creates. -/
theorem fits_of_counts (hN : h.Narrow) (hvf : qedInitQmGetNumActiveVfs h ≤ qedInitQmGetNumVfs h)
    (hvports : qedInitQmGetNumVports h ≤ h.pq.num) (hpqs : qedInitQmGetNumPqs h ≤ h.pq.num)
    (hrls : qedInitQmGetNumRls h ≤ h.rl.num) (hz : ∀ i, (q.qmPqParams i).rlValid = false)
    (hilt : q.iltPfPqs = 0) : QmFits h q (qedInitQmInfo h q) := by
  obtain ⟨⟨v, f, b⟩, hsame, mark, hvfs⟩ := built_pqParams hN hz hvf (built_start h hilt)
  change Built h q.qmPqParams (qedInitQmInfo h q) _ _ _ _ at b
  change SameQm _ (qedInitQmInfo h q) at hsame
  change ∀ s ∈ _, _ → Marked (qedInitQmInfo h q) _ _ at mark
  change _ → Marked (qedInitQmInfo h q) _ _ at hvfs
  generalize qedInitQmInfo h q = q' at b hsame mark hvfs
  have hlen : q'.made.length < 2 ^ 16 := by
    rw [b.length]
    exact numPqs_lt h
  have hrank : ∀ i < q'.numPqs, (q'.qmPqParams i).rlValid = true →
      rlRank q'.qmPqParams i < qedInitQmGetNumRls h := by
    intro i hi hvalid
    rw [b.numPqs] at hi
    exact b.rank ▸ rlRank_lt _ hi hvalid
  have hrlt : qedInitQmGetNumRls h < 2 ^ 16 := mod_lt _ (Nat.two_pow_pos 16)
  have hrl : qedGetPqFlags h .rls = true → ∀ rl < qedInitQmGetNumPfRls h,
      q'.made[qedGetQmPqFromCmPq q' (qedGetCmPqIdxRl h q' rl)]? = some (.rl rl) :=
    fun hset rl hlt => rl_getter (mark (.rls, rlReqs h) (by simp [pfSegments]) hset) hset hlen hlt
  refine
    { overflow := b.overflow
      numPqs := b.numPqs
      made := b.length.trans b.numPqs.symm
      le_num := b.numPqs.trans_le hpqs
      writes := fun i hi => b.behind i (hpqs.trans hi)
      startVport := hsame.startVport
      startRl := hsame.startRl
      vport := fun i hi => ?_
      rl := fun i hi hvalid => ?_
      rl_ne := fun i j hij hj hi hvalid => ?_
      mcos := fun hset tc htc =>
        mcos_getter (mark (.mcos, mcosReqs h) (by simp [pfSegments]) hset) hset hlen htc
      vf := fun hset vf hlt => ?_
      vfRdma := fun hset vf hlt => ?_
      vfRdmaAll := fun hset vf => ?_
      rlPq := hrl
      ofld := fun hset => mtc_getter hN
        (mark (.ofld, mtcReqs h .ofld) (by simp [pfSegments]) hset) hset rfl hlen
      llt := fun hset => mtc_getter hN
        (mark (.llt, mtcReqs h .llt) (by simp [pfSegments]) hset) hset rfl hlen
      dcqcn := fun hset hd idx hidx tc => ?_ }
  · rw [b.numPqs] at hi
    obtain ⟨j, hj, heq⟩ := b.vport i hi
    exact ⟨j, hj.trans_le hvports, heq⟩
  · have hlt := hrank i hi hvalid
    rw [b.numPqs] at hi
    exact ⟨_, hlt.trans_le hrls, b.rl i hi hvalid⟩
  · have hlt := hrank j hj hvalid
    have hij' := rlRank_lt q'.qmPqParams hij hi
    rw [b.numPqs] at hj
    rw [b.rl i (hij.trans hj) hi, b.rl j hj hvalid]
    omega
  · have hper : 0 < qedQmGetPqsPerVf h := by
      unfold qedQmGetPqsPerVf
      split <;> omega
    have hget := vf_getter (hvfs hset) hset hlen hlt hper
    rw [add_zero, vfReqs_first] at hget
    rwa [mod_eq_of_lt (cmPqIdxVf_lt hset q' vf)] at hget
  · have hper : 1 < qedQmGetPqsPerVf h := by
      rw [qedQmGetPqsPerVf, if_pos hset]
      omega
    obtain ⟨hvset, hvsr⟩ := vfs_of_vfr hset
    have hget := vf_getter (hvfs hvset) hvset hlen hlt hper
    rw [vfReqs_second hset] at hget
    simpa only [qedGetCmPqIdxVfRdma, hset, hvsr, if_true, false_eq_true, if_false] using hget
  · have hvfr : qedGetPqFlags h .vfr = false := by
      by_contra hc
      rw [(vfs_of_vfr (not_eq_false _ ▸ hc)).2] at hset
      cases hset
    have hm := mark (.vsr, _) (List.mem_of_getElem? (i := 8) rfl) hset
    have hlt : qedGetCmPqIdx h q' .vsr < 2 ^ 16 := mod_lt _ (Nat.two_pow_pos 16)
    have hget := hm.getter hset rfl hlen (i := 0) zero_lt_one
    rw [add_zero, mod_eq_of_lt hlt] at hget
    simp only [qedGetCmPqIdxVfRdma, hset, hvfr, if_true, false_eq_true, if_false]
    exact hget
  · rw [qedGetCmPqIdxOfldMtc, qedGetCmPqIdxLltMtc, getCmPqIdxMtc, getCmPqIdxMtc, hd, if_pos rfl]
    exact ⟨hrl hset idx hidx, hrl hset idx hidx⟩

/-- **Scheduler resources never overflow.** If `qed_init_qm_features` succeeds, the
`qed_init_qm_info` that follows creates the PQs that were counted, within the resources, with RLs of
their own, and so that each getter returns a PQ created for its purpose. The array of PQs
was allocated with zeros, and there is no limit from the ILT yet. -/
theorem qm_info_fits {h₀ : QmHwfn} (hN : h₀.Narrow) (hvf : h₀.maxActiveVfs ≤ h₀.totalVfs)
    (hf : qedInitQmFeatures h₀ = (h, true)) (hz : ∀ i, (q.qmPqParams i).rlValid = false)
    (hilt : q.iltPfPqs = 0) : QmFits h q (qedInitQmInfo h q) := by
  obtain ⟨⟨x, y, d, rfl⟩, hvports, hpqs, hrls⟩ := features_spec hf
  refine fits_of_counts (hN.features x y d) ?_ hvports hpqs hrls hz hilt
  simp only [qedInitQmGetNumActiveVfs, qedInitQmGetNumVfs]
  split
  · exact hvf
  · exact le_rfl

end Fits

/-- A RoCE function of a device with LAG and SR-IOV, with the resources of one of four functions. -/
def roceHwfn : QmHwfn :=
  { personality := .ethRoce, isAh := true, mfRoceLag := true, numPortsInEngine := 2, portId := 0
    lag := ⟨false, 0, 0, 0, false⟩, numHwTc := 4, offloadTc := none, multiTcRoceEn := true
    bEnPacing := false, bEnDcqcn := false, dcqcnEnabled := false, sriov := true, totalVfs := 16
    maxActiveVfs := 16, vfRdma := true, vfRdmaEn := false, pq := ⟨112, 0⟩, vport := ⟨40, 0⟩
    rl := ⟨64, 0⟩ }

/-- The memory of `qed_qm_info` after its allocation. -/
def zeroQmInfo : QmInfo :=
  { qmPqParams := fun _ => ⟨0, 0, false, 0, 0, 0⟩, startPq := 0, startVport := 0, startRl := 0
    first := fun _ => 0, numPqs := 0, numVfPqs := 0, iltPfPqs := 0, numVports := 0, numRls := 0
    numPfRls := 0, maxPhysTcsPerPort := 0, oooTc := 0, pqOverflow := false, offloadGroup := []
    made := [] }

theorem qm_info_fits_roce :
    QmFits (qedInitQmFeatures roceHwfn).1 zeroQmInfo
      (qedInitQmInfo (qedInitQmFeatures roceHwfn).1 zeroQmInfo) :=
  qm_info_fits (⟨by decide, by decide, by decide⟩ : roceHwfn.Narrow) (by decide)
    (by decide +kernel) (fun _ => rfl) rfl

/-- With 128 TCs on two ports the number of multi-TC PQs wraps around to zero: the count passes,
and more PQs are created than were counted. -/
theorem qm_info_overflow_tcs :
    let h : QmHwfn := { roceHwfn with
      numHwTc := 128, maxActiveVfs := 0, pq := ⟨448, 0⟩
      numHwTc_lt := by decide, maxActiveVfs_lt := by decide }
    (qedInitQmFeatures h).2 = true ∧ qedInitQmGetNumPqs (qedInitQmFeatures h).1 = 129 ∧
      (qedInitQmInfo (qedInitQmFeatures h).1 zeroQmInfo).numPqs = 641 ∧
      (qedInitQmInfo (qedInitQmFeatures h).1 zeroQmInfo).pqOverflow = true := by
  decide +kernel

end FastLinQ.Qed
