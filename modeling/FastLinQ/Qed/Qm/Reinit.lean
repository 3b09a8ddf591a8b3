import FastLinQ.Qed.Qm.Fit

/-!
# Initialising the queue manager again

`qed_init_qm_info` also runs when the features change, on the tables of the last time. Most fields
of an entry of `qm_pq_params` are written for every PQ, but those of the RL only for a PQ that takes
one. So a PQ without an RL keeps the RL that another PQ had in its place.

`Lockstep` relates two runs for the same function on different tables: the counters agree, and so do
the entries but for the RLs (`Lockstep.pqParams`).
-/

namespace FastLinQ.Qed

open Function List Nat Prod

/-! ## The PQs with an RL -/

def segReqs (h : QmHwfn) (s : PqFlag × List PqReq) : List PqReq :=
  if qedGetPqFlags h s.1 then s.2 else []

/-- The PQs that `qed_init_qm_pq_params` creates, in their order. -/
def pqReqs (h : QmHwfn) (q : QmInfo) : List PqReq :=
  (pfSegments h q ++ [(PqFlag.vfs, allVfReqs h)]).flatMap (segReqs h)

/-- The indices of PQs with an RL, from index `n` on. -/
def rlIdx : ℕ → List PqReq → List ℕ
  | _, [] => []
  | n, x :: l => (if x.isRl then [n % 2 ^ 16] else []) ++ rlIdx (n + 1) l

theorem rlIdx_append (n : ℕ) (l l' : List PqReq) :
    rlIdx n (l ++ l') = rlIdx n l ++ rlIdx (n + l.length) l' := by
  induction l generalizing n with
  | nil => rfl
  | cons x l ih =>
    rw [cons_append, rlIdx, rlIdx, ih, append_assoc, length_cons, add_assoc, add_comm 1]

/-! ## Two runs -/

/-- The RL of a PQ, and the rest of its entry. -/
def PqParams.rl (p : PqParams) : Bool × ℕ := (p.rlValid, p.rlId)

def PqParams.rest (p : PqParams) : ℕ × ℕ × ℕ × ℕ := (p.vportId, p.tcId, p.wrrGroup, p.portId)

theorem PqParams.eq_iff {p p' : PqParams} : p = p' ↔ p.rl = p'.rl ∧ p.rest = p'.rest := by
  cases p
  cases p'
  simp only [rl, rest, mk.injEq, Prod.mk.injEq]
  tauto

/-- What the entries depend on. -/
def QmInfo.counters (q : QmInfo) : ℕ × ℕ × ℕ × ℕ × ℕ × ℕ :=
  (q.numPqs, q.numVports, q.numRls, q.startPq, q.startVport, q.startRl)

/-- After `n` PQs, those in `R` with an RL, were created in the tables `a` and `b`, and the first PQ
of each flag in `F` was set. -/
structure Lockstep (h : QmHwfn) (a b : ℕ → PqParams) (F : List PqFlag) (n : ℕ) (R : List ℕ)
    (q z : QmInfo) : Prop where
  numPqs : q.numPqs = n % 2 ^ 16
  counters : q.counters = z.counters
  first : ∀ flag ∈ F, hasIdx h flag = true → q.first flag = z.first flag
  rest : ∀ k < n, (q.qmPqParams (k % 2 ^ 16)).rest = (z.qmPqParams (k % 2 ^ 16)).rest
  rl : ∀ i ∈ R, (q.qmPqParams i).rl = (z.qmPqParams i).rl ∧ (q.qmPqParams i).rlValid = true
  old : ∀ i ∉ R, (q.qmPqParams i).rl = (a i).rl ∧ (z.qmPqParams i).rl = (b i).rl

theorem pqPort_rl (h : QmHwfn) (q : QmInfo) (x : PqReq) (i : ℕ) :
    ((qedInitQmPqPort h q x).qmPqParams i).rl =
      if i = q.numPqs ∧ x.isRl = true then (true, (q.startRl + q.numRls) % 2 ^ 16)
      else (q.qmPqParams i).rl := by
  simp only [qedInitQmPqPort, update_apply]
  by_cases hi : i = q.numPqs <;> cases hx : x.isRl <;> simp [hi, PqParams.rl]

theorem pqPort_rest (h : QmHwfn) (q : QmInfo) (x : PqReq) (i : ℕ) :
    ((qedInitQmPqPort h q x).qmPqParams i).rest =
      if i = q.numPqs then
        ((q.startVport + q.numVports) % 2 ^ 16, x.tc, PQ_INIT_DEFAULT_WRR_GROUP, x.port)
      else (q.qmPqParams i).rest := by
  simp only [qedInitQmPqPort, update_apply]
  split <;> rfl

theorem mem_new {x : PqReq} {n i : ℕ} :
    (i ∈ if x.isRl then [n] else []) ↔ i = n ∧ x.isRl = true := by
  cases x.isRl <;> simp

namespace Lockstep

variable {h : QmHwfn} {a b : ℕ → PqParams} {F : List PqFlag} {n : ℕ} {R : List ℕ} {q z : QmInfo}
  (k : Lockstep h a b F n R q z)

include k

theorem add (x : PqReq) :
    Lockstep h a b F (n + 1) (R ++ if x.isRl then [n % 2 ^ 16] else [])
      (qedInitQmPqPort h q x) (qedInitQmPqPort h z x) := by
  have hcount := k.counters
  simp only [QmInfo.counters, mk.injEq] at hcount
  obtain ⟨hpqs, hvports, hrls, hpq, hvport, hrl⟩ := hcount
  have hz : z.numPqs = n % 2 ^ 16 := hpqs.symm.trans k.numPqs
  refine ⟨?_, ?_, k.first, fun j hj => ?_, fun i hi => ?_, fun i hi => ?_⟩
  · simp [qedInitQmPqPort, k.numPqs, mod_add_mod]
  · simp [QmInfo.counters, qedInitQmPqPort, hpqs, hvports, hrls, hpq, hvport, hrl]
  · rw [pqPort_rest, pqPort_rest, k.numPqs, hz, hvports, hvport]
    split
    · rfl
    · next hne => exact k.rest j (lt_of_le_of_ne (le_of_lt_succ hj) fun he => hne (he ▸ rfl))
  · change _ ∧ ((qedInitQmPqPort h q x).qmPqParams i).rl.1 = true
    rw [pqPort_rl, pqPort_rl, hz, k.numPqs, hrls, hrl]
    split
    · exact ⟨rfl, rfl⟩
    · next hnot => exact k.rl i ((mem_append.1 hi).resolve_right fun hmem => hnot (mem_new.1 hmem))
  · obtain ⟨hold, hnew⟩ := not_or.1 (mt mem_append.2 hi)
    rw [mem_new] at hnew
    rw [pqPort_rl, pqPort_rl, hz, k.numPqs, if_neg hnew, if_neg hnew]
    exact k.old i hold

theorem addPqs (l : List PqReq) :
    Lockstep h a b F (n + l.length) (R ++ rlIdx n l) (addPqs h q l) (addPqs h z l) := by
  induction l generalizing n R q z with
  | nil =>
    rw [rlIdx, append_nil]
    exact k
  | cons x l ih =>
    rw [rlIdx, ← append_assoc, length_cons, add_comm l.length, ← add_assoc]
    exact ih (k.add x)

theorem segment {s : PqFlag × List PqReq} (hs : s.1.indexed = true) :
    Lockstep h a b (s.1 :: F) (n + (segReqs h s).length) (R ++ rlIdx n (segReqs h s))
      (initQmPqs s.1 h s.2 q) (initQmPqs s.1 h s.2 z) := by
  unfold initQmPqs segReqs
  cases hflag : qedGetPqFlags h s.1 with
  | false =>
    have hfirst : ∀ flag ∈ s.1 :: F, hasIdx h flag = true → q.first flag = z.first flag := by
      intro flag hmem hidx
      refine k.first flag ((mem_cons.1 hmem).resolve_left fun heq => ?_) hidx
      rw [heq, hasIdx, hflag] at hidx
      exact absurd hidx Bool.false_ne_true
    simpa [rlIdx] using (⟨k.numPqs, k.counters, hfirst, k.rest, k.rl, k.old⟩ : Lockstep ..)
  | true =>
    have hcount := k.counters
    simp only [QmInfo.counters, mk.injEq] at hcount
    simp only [if_true, setIdx_eq hflag hs, Bool.true_eq_false, if_false]
    have hset : Lockstep h a b (s.1 :: F) n R
        { q with first := update q.first s.1 ((q.startPq + q.numPqs) % 2 ^ 16) }
        { z with first := update z.first s.1 ((z.startPq + z.numPqs) % 2 ^ 16) } := by
      refine ⟨k.numPqs, k.counters, fun flag hmem hidx => ?_, k.rest, k.rl, k.old⟩
      dsimp only
      by_cases heq : flag = s.1
      · rw [heq, update_self, update_self, hcount.1, hcount.2.2.2.1]
      · rw [update_of_ne heq, update_of_ne heq]
        exact k.first flag ((mem_cons.1 hmem).resolve_left heq) hidx
    exact hset.addPqs s.2

theorem segments (segs : List (PqFlag × List PqReq)) (hi : ∀ s ∈ segs, s.1.indexed = true) :
    Lockstep h a b ((segs.map fst).reverse ++ F) (n + (segs.flatMap (segReqs h)).length)
      (R ++ rlIdx n (segs.flatMap (segReqs h))) (addSegments h segs q) (addSegments h segs z) := by
  induction segs generalizing F n R q z with
  | nil =>
    rw [flatMap_nil, rlIdx, append_nil]
    exact k
  | cons s segs ih =>
    obtain ⟨hs, hsegs⟩ := forall_mem_cons.1 hi
    have hall := ih (k.segment hs) hsegs
    rw [append_assoc, ← rlIdx_append, add_assoc, ← length_append] at hall
    rw [map_cons, reverse_cons, append_assoc]
    exact hall

omit k in
theorem pqParams (k : Lockstep h a b [] 0 [] q z) (hsegs : pfSegments h q = pfSegments h z) :
    Lockstep h a b [.vfs, .vsr, .grp, .llt, .ofld, .ack, .ooo, .lb, .mcos, .rls] (pqReqs h z).length
      (rlIdx 0 (pqReqs h z)) (qedInitQmPqParams h q) (qedInitQmPqParams h z) := by
  have hpf := k.segments (pfSegments h z) (pfSegments_indexed h z)
  have hcount := hpf.counters
  simp only [QmInfo.counters, mk.injEq] at hcount
  have hadv : Lockstep h a b _ _ _ (qedInitQmAdvanceVport h (addSegments h (pfSegments h z) q))
      (qedInitQmAdvanceVport h (addSegments h (pfSegments h z) z)) :=
    ⟨hpf.numPqs, by simp only [QmInfo.counters, qedInitQmAdvanceVport, *], hpf.first, hpf.rest,
      hpf.rl, hpf.old⟩
  have hvfs := hadv.segment (s := (.vfs, allVfReqs h)) rfl
  rw [zero_add] at hvfs
  rw [pqParams_eq, pqParams_eq, hsegs, pqReqs, flatMap_append, flatMap_singleton,
    length_append, rlIdx_append, zero_add]
  exact hvfs

end Lockstep

/-! ## Initialising twice -/

/-- The state that `qed_init_qm_pq_params` is called in. -/
def qmStart (h : QmHwfn) (q : QmInfo) : QmInfo := qedInitQmParams h (qedInitQmResetParams q)

theorem qmStart_oooTc (h : QmHwfn) (q : QmInfo) :
    (qmStart h q).oooTc =
      if q.oooTc ≠ 0 then q.oooTc
      else if h.numPortsInEngine = MAX_NUM_PORTS_K2 then DCBX_TCP_OOO_K2_4PORT_TC
      else DCBX_TCP_OOO_TC := rfl

/-- The results agree: the counters, the first PQ of each flag of the function, and the PQs. -/
structure QmAgrees (h : QmHwfn) (q z : QmInfo) : Prop where
  numPqs : q.numPqs = z.numPqs
  numVports : q.numVports = z.numVports
  numRls : q.numRls = z.numRls
  first : ∀ flag, hasIdx h flag = true → q.first flag = z.first flag
  pqs : ∀ i < z.numPqs, q.qmPqParams i = z.qmPqParams i

def QmInfo.zeroed (q : QmInfo) : QmInfo := { q with qmPqParams := fun _ => ⟨0, 0, false, 0, 0, 0⟩ }

theorem pqParams_same (h : QmHwfn) (q : QmInfo) : SameQm q (qedInitQmPqParams h q) := by
  rw [pqParams_eq]
  have hpf := addSegments_same h (pfSegments h q) (pfSegments_indexed h q) q
  generalize addSegments h (pfSegments h q) q = x at hpf ⊢
  have hadv : SameQm x (qedInitQmAdvanceVport h x) := ⟨rfl, rfl, rfl, rfl, rfl⟩
  have hvfs : SameQm (qedInitQmAdvanceVport h x) (qedInitQmVfPqs h (qedInitQmAdvanceVport h x)) :=
    initQmPqs_same rfl _ _
  exact (hpf.trans hadv).trans hvfs

/-- **Initialising again equals a fresh initialisation**, for features that differ on one device,
just if no PQ without an RL comes to the place of a PQ that had one. -/
theorem qm_reinit_agrees_iff {A B : QmHwfn} (hports : A.numPortsInEngine = B.numPortsInEngine)
    (q : QmInfo) :
    QmAgrees B (qedInitQmInfo B (qedInitQmInfo A q.zeroed)) (qedInitQmInfo B q.zeroed) ↔
      ∀ i ∈ rlIdx 0 (pqReqs A (qmStart A q)), i < (pqReqs B (qmStart B q)).length % 2 ^ 16 →
        i ∈ rlIdx 0 (pqReqs B (qmStart B q)) := by
  have hA : Lockstep A _ _ _ _ _ (qedInitQmInfo A q.zeroed) (qedInitQmInfo A q.zeroed) :=
    Lockstep.pqParams
      ⟨rfl, rfl, nofun, nofun, nofun, fun _ _ => ⟨rfl, rfl⟩⟩ rfl
  have hsame := pqParams_same A (qmStart A q.zeroed)
  have hooo : (qmStart B (qedInitQmInfo A q.zeroed)).oooTc = (qmStart B q.zeroed).oooTc := by
    have hkept : (qedInitQmInfo A q.zeroed).oooTc = (qmStart A q.zeroed).oooTc := hsame.oooTc
    rw [qmStart_oooTc, hkept, qmStart_oooTc, qmStart_oooTc, hports]
    split_ifs <;> rfl
  have hgroup : (qmStart B (qedInitQmInfo A q.zeroed)).offloadGroup =
      (qmStart B q.zeroed).offloadGroup := hsame.offloadGroup
  have hB : Lockstep B _ _ _ _ _ (qedInitQmInfo B (qedInitQmInfo A q.zeroed))
      (qedInitQmInfo B q.zeroed) :=
    Lockstep.pqParams (q := qmStart B (qedInitQmInfo A q.zeroed)) (z := qmStart B q.zeroed)
      ⟨rfl, rfl, nofun, nofun, nofun, fun _ _ => ⟨rfl, rfl⟩⟩
      (by simp only [pfSegments, hooo, hgroup])
  have hcount := hB.counters
  simp only [QmInfo.counters, mk.injEq] at hcount
  have hnum := hcount.1.symm.trans hB.numPqs
  constructor
  · intro hagree i hi hlt
    by_contra hnot
    obtain ⟨holdq, holdz⟩ := hB.old i hnot
    rw [hagree.pqs i (hnum ▸ hlt), holdz] at holdq
    exact Bool.false_ne_true ((congrArg fst holdq).trans (hA.rl i hi).2)
  · intro hcond
    refine ⟨hcount.1, hcount.2.1, hcount.2.2.1, fun flag hidx => ?_, fun i hlt => ?_⟩
    · refine hB.first flag ?_ hidx
      cases flag <;> first | decide | (simp [hasIdx, PqFlag.indexed] at hidx)
    · rw [hnum] at hlt
      have hrest := hB.rest i (hlt.trans_le (mod_le _ _))
      rw [Nat.mod_eq_of_lt (hlt.trans (Nat.mod_lt _ (Nat.two_pow_pos 16)))] at hrest
      refine PqParams.eq_iff.2 ⟨?_, hrest⟩
      by_cases hi : i ∈ rlIdx 0 (pqReqs B (qmStart B q.zeroed))
      · exact (hB.rl i hi).1
      · obtain ⟨holdq, holdz⟩ := hB.old i hi
        rw [holdq, holdz]
        exact (hA.old i fun hA => hi (hcond i hA hlt)).1

/-- Another TC for offloaded connections changes no RL. -/
theorem qm_reinit_agrees_offload :
    let B : QmHwfn := { roceHwfn with offloadTc := some 3 }
    QmAgrees B (qedInitQmInfo B (qedInitQmInfo roceHwfn zeroQmInfo.zeroed))
      (qedInitQmInfo B zeroQmInfo.zeroed) := by
  intro B
  refine (qm_reinit_agrees_iff (A := roceHwfn) (B := B) rfl zeroQmInfo).2 ?_
  decide +kernel

/-- Multi-TC RoCE is switched on while VFs are active: the first of the new PQs keeps the RL of the
first VF. -/
theorem not_qm_reinit_agrees :
    let A : QmHwfn := { roceHwfn with multiTcRoceEn := false }
    (qedInitQmFeatures A).2 = true ∧ (qedInitQmFeatures roceHwfn).2 = true ∧
      ¬ QmAgrees (qedInitQmFeatures roceHwfn).1
        (qedInitQmInfo (qedInitQmFeatures roceHwfn).1
          (qedInitQmInfo (qedInitQmFeatures A).1 zeroQmInfo))
        (qedInitQmInfo (qedInitQmFeatures roceHwfn).1 zeroQmInfo) := by
  refine ⟨by decide +kernel, by decide +kernel, fun h => ?_⟩
  exact absurd (congrArg PqParams.rlValid (h.pqs 9 (by decide +kernel))) (by decide +kernel)

end FastLinQ.Qed
