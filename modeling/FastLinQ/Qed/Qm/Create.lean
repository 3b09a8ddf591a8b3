import FastLinQ.Qed.Qm.Basic

/-!
# What the creation of physical queues does to the counters

`qed_init_qm_info` creates PQs in segments, one for each flag. `Built` is the state of the counters
and of `qm_pq_params` after some PQs were created: it says how many PQs, vports and RLs are in use,
that no check has failed, and which vport and RL each PQ got. A PQ adds to it (`Built.add`), so does
a list of PQs (`Built.addPqs`) and a segment (`Built.segment`).
-/

namespace FastLinQ.Qed

open Function List Nat PqReq

/-! ## Counts of requests -/

def nVports (l : List PqReq) : ℕ := l.countP fun r => !r.init.shareVport

def nRls (l : List PqReq) : ℕ := l.countP isRl

def nPfRls (l : List PqReq) : ℕ := l.countP fun r => r.init.pfRl

theorem nVports_take_le (l : List PqReq) (k : ℕ) : nVports (l.take k) ≤ nVports l :=
  (take_sublist k l).countP_le

/-! ## RLs in the order of the PQs -/

/-- The number of PQs before `i` with an RL. -/
def rlRank (p : ℕ → PqParams) (i : ℕ) : ℕ := (List.range i).countP fun k => (p k).rlValid

theorem rlRank_succ (p : ℕ → PqParams) (i : ℕ) :
    rlRank p (i + 1) = rlRank p i + if (p i).rlValid then 1 else 0 := by
  rw [rlRank, range_succ, countP_append, countP_singleton]
  rfl

theorem rlRank_lt (p : ℕ → PqParams) {i j : ℕ} (hij : i < j) (hi : (p i).rlValid = true) :
    rlRank p i < rlRank p j := by
  have hsucc := rlRank_succ p i
  rw [if_pos hi] at hsucc
  exact (by omega : rlRank p i < rlRank p (i + 1)).trans_le ((range_sublist.2 hij).countP_le)

/-! ## The state of the counters -/

/-- After the creation of `n` PQs that use up `v` vports and `r` RLs, `f` of them of the PF. The
entries of `qm_pq_params` behind them are still those of `a`. -/
structure Built (h : QmHwfn) (a : ℕ → PqParams) (q : QmInfo) (n v r f : ℕ) : Prop where
  length : q.made.length = n
  numPqs : q.numPqs = n
  numVports : q.numVports = v
  numRls : q.numRls = r
  numPfRls : q.numPfRls = f % 2 ^ 8
  overflow : q.pqOverflow = false
  ilt : q.iltPfPqs = 0
  behind : ∀ i, n ≤ i → q.qmPqParams i = a i
  vport : ∀ i < n, ∃ j < qedInitQmGetNumVports h,
    (q.qmPqParams i).vportId = (q.startVport + j) % 2 ^ 16
  rl : ∀ i < n, (q.qmPqParams i).rlValid = true →
    (q.qmPqParams i).rlId = (q.startRl + rlRank q.qmPqParams i) % 2 ^ 16
  rank : rlRank q.qmPqParams n = r

theorem numPqs_lt (h : QmHwfn) : qedInitQmGetNumPqs h < 2 ^ 16 := Nat.mod_lt _ (Nat.two_pow_pos 16)

theorem numVports_lt (h : QmHwfn) : qedInitQmGetNumVports h < 2 ^ 16 :=
  Nat.mod_lt _ (Nat.two_pow_pos 16)

section Create

variable {h : QmHwfn} {a : ℕ → PqParams} {q : QmInfo} {n v r f : ℕ}

theorem Built.numRls_le (b : Built h a q n v r f) : r ≤ n := by
  rw [← b.rank]
  exact countP_le_length.trans (length_range).le

/-- The checks of `qed_init_qm_pq_port`, without a limit from the ILT. -/
theorem pqPort_overflow (hilt : q.iltPfPqs = 0) (x : PqReq) :
    (qedInitQmPqPort h q x).pqOverflow =
      (q.pqOverflow || decide (qedInitQmGetNumPqs h ≤ q.numPqs) ||
        decide (qedInitQmGetNumVports h < (qedInitQmPqPort h q x).numVports) ||
        decide (qedInitQmGetNumPfRls h < (qedInitQmPqPort h q x).numPfRls)) := by
  simp [qedInitQmPqPort, hilt, bne_self_eq_false, Bool.and_false, Bool.false_and, Bool.or_false]

/-- **One more PQ.** The checks pass if there is a PQ, a vport and, for an RL of the PF, an RL
left. -/
theorem Built.add (b : Built h a q n v r f) (ha : ∀ i, (a i).rlValid = false) (x : PqReq)
    (hn : n < qedInitQmGetNumPqs h) (hv : v < qedInitQmGetNumVports h)
    (hf : f + nPfRls [x] ≤ qedInitQmGetNumPfRls h) :
    Built h a (qedInitQmPqPort h q x) (n + 1) (v + nVports [x]) (r + nRls [x])
      (f + nPfRls [x]) := by
  have hN := numPqs_lt h
  have hV := numVports_lt h
  have hr := b.numRls_le
  have hold : (q.qmPqParams n).rlValid = false := by rw [b.behind n le_rfl, ha]
  have hVx : nVports [x] = if x.init.shareVport then 0 else 1 := by
    rw [nVports, countP_singleton]
    cases x.init.shareVport <;> rfl
  have hRx : nRls [x] = if x.isRl then 1 else 0 := countP_singleton
  have hFx : nPfRls [x] = if x.init.pfRl then 1 else 0 := countP_singleton
  have hvports : (qedInitQmPqPort h q x).numVports = v + nVports [x] := by
    simp only [qedInitQmPqPort, hVx, b.numVports]
    split
    · rfl
    · exact mod_eq_of_lt (by omega)
  have hpf : (qedInitQmPqPort h q x).numPfRls = (f + nPfRls [x]) % 2 ^ 8 := by
    simp only [qedInitQmPqPort, hFx, b.numPfRls]
    split
    · rw [mod_add_mod]
    · rfl
  have hself : (qedInitQmPqPort h q x).qmPqParams n =
      { vportId := (q.startVport + v) % 2 ^ 16
        rlId := if x.isRl then (q.startRl + r) % 2 ^ 16 else (q.qmPqParams n).rlId
        rlValid := x.isRl
        tcId := x.tc
        wrrGroup := PQ_INIT_DEFAULT_WRR_GROUP
        portId := x.port } := by
    simp [qedInitQmPqPort, b.numPqs, b.numVports, b.numRls, hold, Bool.or_false, update_self]
  have hother : ∀ i, i ≠ n → (qedInitQmPqPort h q x).qmPqParams i = q.qmPqParams i := by
    intro i hi
    simp only [qedInitQmPqPort, b.numPqs]
    exact update_of_ne hi _ _
  have hranks : ∀ i ≤ n, rlRank (qedInitQmPqPort h q x).qmPqParams i = rlRank q.qmPqParams i :=
    fun i hi => countP_congr fun k hk => by rw [hother k (by have := mem_range.1 hk; omega)]
  refine
    { length := ?_
      numPqs := ?_
      numVports := hvports
      numRls := ?_
      numPfRls := hpf
      overflow := ?_
      ilt := b.ilt
      behind := fun i hi => (hother i (by omega)).trans (b.behind i (by omega))
      vport := fun i hi => ?_
      rl := fun i hi hvalid => ?_
      rank := ?_ }
  · simp [qedInitQmPqPort, length_append, b.length]
  · simp only [qedInitQmPqPort, b.numPqs]
    exact mod_eq_of_lt (by omega)
  · simp only [qedInitQmPqPort, hRx, b.numRls]
    split
    · exact mod_eq_of_lt (by omega)
    · rfl
  · have hle : nVports [x] ≤ 1 := by
      rw [hVx]
      split <;> omega
    rw [pqPort_overflow b.ilt, b.overflow, b.numPqs]
    simp only [Bool.false_or, Bool.or_eq_false_iff, decide_eq_false_iff_not]
    omega
  · rcases Nat.lt_succ_iff_lt_or_eq.1 hi with hi | rfl
    · rw [hother i (by omega)]
      exact b.vport i hi
    · rw [hself]
      exact ⟨v, hv, rfl⟩
  · rw [hranks i (by omega)]
    rcases Nat.lt_succ_iff_lt_or_eq.1 hi with hi | rfl
    · rw [hother i (by omega)] at hvalid ⊢
      exact b.rl i hi hvalid
    · rw [hself] at hvalid ⊢
      rw [b.rank]
      exact if_pos hvalid
  · rw [rlRank_succ, hranks n le_rfl, b.rank, hself, hRx]

theorem nVports_cons (x : PqReq) (l : List PqReq) : nVports (x :: l) = nVports [x] + nVports l := by
  rw [← singleton_append, nVports, countP_append]
  rfl

theorem nRls_cons (x : PqReq) (l : List PqReq) : nRls (x :: l) = nRls [x] + nRls l := by
  rw [← singleton_append, nRls, countP_append]
  rfl

theorem nPfRls_cons (x : PqReq) (l : List PqReq) : nPfRls (x :: l) = nPfRls [x] + nPfRls l := by
  rw [← singleton_append, nPfRls, countP_append]
  rfl

/-- **A list of PQs.** Each of them finds a vport. -/
theorem Built.addPqs (b : Built h a q n v r f) (ha : ∀ i, (a i).rlValid = false) (l : List PqReq)
    (hn : n + l.length ≤ qedInitQmGetNumPqs h)
    (hv : ∀ k < l.length, v + nVports (l.take k) < qedInitQmGetNumVports h)
    (hf : f + nPfRls l ≤ qedInitQmGetNumPfRls h) :
    Built h a (addPqs h q l) (n + l.length) (v + nVports l) (r + nRls l) (f + nPfRls l) := by
  induction l generalizing q n v r f with
  | nil => exact b
  | cons x l ih =>
    rw [length_cons] at hn hv
    rw [nPfRls_cons] at hf
    have hx := b.add ha x (by omega) (hv 0 (by omega)) (by omega)
    have hl := ih hx (by omega) (fun k hk => ?_) (by omega)
    · rw [length_cons, nVports_cons, nRls_cons, nPfRls_cons, add_comm l.length 1,
        ← add_assoc, ← add_assoc, ← add_assoc, ← add_assoc]
      exact hl
    · have := hv (k + 1) (by omega)
      rw [take_succ_cons, nVports_cons] at this
      omega

variable {flag : PqFlag}

theorem setIdx_eq (hflag : qedGetPqFlags h flag = true) (hi : flag.indexed = true) (q : QmInfo)
    (k : ℕ) :
    qedInitQmSetIdx h q flag k =
      { q with first := update q.first flag ((q.startPq + k) % 2 ^ 16) } := by
  rw [qedInitQmSetIdx, if_pos (by rw [hasIdx, hflag, hi]; rfl)]

theorem flagged_of_set (hflag : qedGetPqFlags h flag = true) (m : ℕ) :
    flagged h flag m = m := if_pos hflag

theorem flagged_of_unset (hflag : qedGetPqFlags h flag = false) (m : ℕ) :
    flagged h flag m = 0 := if_neg (by rw [hflag]; exact Bool.false_ne_true)

theorem Built.segment (b : Built h a q n v r f) (ha : ∀ i, (a i).rlValid = false)
    (hi : flag.indexed = true) (l : List PqReq)
    (hn : n + flagged h flag l.length ≤ qedInitQmGetNumPqs h)
    (hv : qedGetPqFlags h flag = true →
      ∀ k < l.length, v + nVports (l.take k) < qedInitQmGetNumVports h)
    (hf : f + flagged h flag (nPfRls l) ≤ qedInitQmGetNumPfRls h) :
    Built h a (initQmPqs flag h l q) (n + flagged h flag l.length)
      (v + flagged h flag (nVports l)) (r + flagged h flag (nRls l))
      (f + flagged h flag (nPfRls l)) := by
  cases hflag : qedGetPqFlags h flag with
  | false =>
    simp only [flagged_of_unset hflag, initQmPqs, hflag, if_true, add_zero]
    exact b
  | true =>
    simp only [flagged_of_set hflag] at hn hf ⊢
    rw [initQmPqs, hflag, setIdx_eq hflag hi]
    refine Built.addPqs ?_ ha l hn (hv hflag) hf
    exact { b with }

/-! ## Which PQ is for what -/

theorem addPqs_made (h : QmHwfn) (q : QmInfo) (l : List PqReq) :
    (addPqs h q l).made = q.made ++ l.map purpose := by
  induction l generalizing q with
  | nil => exact (append_nil _).symm
  | cons x l ih =>
    refine (ih _).trans ?_
    rw [map_cons, ← singleton_append, ← append_assoc]
    rfl

/-- The fields that the creation of PQs does not change. -/
structure SameQm (q q' : QmInfo) : Prop where
  startPq : q'.startPq = q.startPq
  startVport : q'.startVport = q.startVport
  startRl : q'.startRl = q.startRl
  oooTc : q'.oooTc = q.oooTc
  offloadGroup : q'.offloadGroup = q.offloadGroup

theorem SameQm.trans {q q' q'' : QmInfo} (h₁ : SameQm q q') (h₂ : SameQm q' q'') : SameQm q q'' :=
  ⟨h₂.startPq.trans h₁.startPq, h₂.startVport.trans h₁.startVport, h₂.startRl.trans h₁.startRl,
    h₂.oooTc.trans h₁.oooTc, h₂.offloadGroup.trans h₁.offloadGroup⟩

theorem addPqs_same (h : QmHwfn) (q : QmInfo) (l : List PqReq) :
    SameQm q (addPqs h q l) ∧ (addPqs h q l).first = q.first := by
  induction l generalizing q with
  | nil => exact ⟨⟨rfl, rfl, rfl, rfl, rfl⟩, rfl⟩
  | cons x l ih =>
    obtain ⟨hs, hf⟩ := ih (qedInitQmPqPort h q x)
    exact ⟨{ hs with }, hf⟩

/-- What a segment changes: it adds its PQs and remembers the first of them. -/
theorem initQmPqs_spec (hi : flag.indexed = true) (l : List PqReq) (q : QmInfo) :
    SameQm q (initQmPqs flag h l q) ∧ (initQmPqs flag h l q).made =
        q.made ++ (if qedGetPqFlags h flag then l.map purpose else []) ∧
      (initQmPqs flag h l q).first =
        if qedGetPqFlags h flag then
          update q.first flag ((q.startPq + q.numPqs) % 2 ^ 16)
        else q.first := by
  unfold initQmPqs
  cases hflag : qedGetPqFlags h flag with
  | false => exact ⟨⟨rfl, rfl, rfl, rfl, rfl⟩, (append_nil _).symm, rfl⟩
  | true =>
    rw [setIdx_eq hflag hi]
    obtain ⟨hs, hf⟩ := addPqs_same h { q with
      first := update q.first flag ((q.startPq + q.numPqs) % 2 ^ 16) } l
    exact ⟨{ hs with }, addPqs_made .., hf⟩

/-- The PQs of a flag were created for the purposes `l`, from the index kept for the flag on. -/
def Marked (q : QmInfo) (flag : PqFlag) (l : List PqPurpose) : Prop :=
  ∃ pre post, q.made = pre ++ (l ++ post) ∧ q.first flag = (q.startPq + pre.length) % 2 ^ 16

theorem Built.marked (b : Built h a q n v r f) (hi : flag.indexed = true)
    (hflag : qedGetPqFlags h flag = true) (l : List PqReq) :
    Marked (initQmPqs flag h l q) flag (l.map purpose) := by
  obtain ⟨hs, hmade, hfirst⟩ := initQmPqs_spec hi l q
  rw [if_pos hflag] at hmade hfirst
  refine ⟨q.made, [], by rw [hmade, append_nil], ?_⟩
  rw [hfirst, hs.startPq, update_self, b.numPqs, b.length]

theorem Marked.segment {flag g : PqFlag} {l : List PqPurpose} (m : Marked q flag l)
    (hne : flag ≠ g) (hi : g.indexed = true) (l' : List PqReq) :
    Marked (initQmPqs g h l' q) flag l := by
  obtain ⟨pre, post, hmade, hfirst⟩ := m
  obtain ⟨hs, hmade', hfirst'⟩ := initQmPqs_spec hi l' q
  refine ⟨pre, post ++ _, by rw [hmade', hmade, append_assoc, append_assoc], ?_⟩
  rw [hfirst', hs.startPq, ← hfirst]
  split
  · exact update_of_ne hne _ _
  · rfl

/-! ## Segments one after the other -/

def addSegments (h : QmHwfn) (segs : List (PqFlag × List PqReq)) (q : QmInfo) : QmInfo :=
  segs.foldl (fun q s => initQmPqs s.1 h s.2 q) q

/-- The sum of a count over the segments whose flags are set. -/
def totalOf (h : QmHwfn) (count : List PqReq → ℕ) (segs : List (PqFlag × List PqReq)) : ℕ :=
  (segs.map fun s => flagged h s.1 (count s.2)).sum

theorem addSegments_same (h : QmHwfn) (segs : List (PqFlag × List PqReq))
    (hi : ∀ s ∈ segs, s.1.indexed = true) (q : QmInfo) : SameQm q (addSegments h segs q) := by
  induction segs generalizing q with
  | nil => exact ⟨rfl, rfl, rfl, rfl, rfl⟩
  | cons s segs ih =>
    obtain ⟨hs, hsegs⟩ := forall_mem_cons.1 hi
    exact (initQmPqs_spec hs s.2 q).1.trans (ih hsegs _)

theorem Marked.segments {l : List PqPurpose} (m : Marked q flag l)
    (segs : List (PqFlag × List PqReq)) (hi : ∀ s ∈ segs, s.1.indexed = true)
    (hnot : flag ∉ segs.map Prod.fst) : Marked (addSegments h segs q) flag l := by
  induction segs generalizing q with
  | nil => exact m
  | cons s segs ih =>
    obtain ⟨hs, hsegs⟩ := forall_mem_cons.1 hi
    rw [map_cons, mem_cons, not_or] at hnot
    exact ih (m.segment hnot.1 hs s.2) hsegs hnot.2

/-- **Segments one after the other**, of different flags, if each PQ finds its vport below the
total. -/
theorem Built.segments (b : Built h a q n v r f) (ha : ∀ i, (a i).rlValid = false)
    (segs : List (PqFlag × List PqReq)) (hi : ∀ s ∈ segs, s.1.indexed = true)
    (hnodup : (segs.map Prod.fst).Nodup)
    (hn : n + totalOf h List.length segs ≤ qedInitQmGetNumPqs h)
    (hv : v + totalOf h nVports segs < qedInitQmGetNumVports h)
    (hf : f + totalOf h nPfRls segs ≤ qedInitQmGetNumPfRls h) :
    Built h a (addSegments h segs q) (n + totalOf h List.length segs)
        (v + totalOf h nVports segs) (r + totalOf h nRls segs) (f + totalOf h nPfRls segs) ∧
      ∀ s ∈ segs, qedGetPqFlags h s.1 = true →
        Marked (addSegments h segs q) s.1 (s.2.map purpose) := by
  induction segs generalizing q n v r f with
  | nil => exact ⟨b, nofun⟩
  | cons s segs ih =>
    obtain ⟨hs, hsegs⟩ := forall_mem_cons.1 hi
    rw [map_cons, nodup_cons] at hnodup
    have hsum : ∀ count : List PqReq → ℕ,
        totalOf h count (s :: segs) = flagged h s.1 (count s.2) + totalOf h count segs :=
      fun count => sum_cons
    rw [hsum] at hn hv hf
    have hb := b.segment ha hs s.2 (by omega) (fun hset k _ => ?_) (by omega)
    · obtain ⟨hall, hmarks⟩ := ih hb hsegs hnodup.2 (by omega) (by omega) (by omega)
      rw [hsum, hsum, hsum, hsum, ← add_assoc, ← add_assoc, ← add_assoc, ← add_assoc]
      refine ⟨hall, fun t ht hset => ?_⟩
      rcases mem_cons.1 ht with rfl | ht
      · exact (b.marked hs hset t.2).segments segs hsegs hnodup.1
      · exact hmarks t ht hset
    · have hle := nVports_take_le s.2 k
      rw [flagged_of_set hset] at hv
      omega

end Create

end FastLinQ.Qed
