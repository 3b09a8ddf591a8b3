import FastLinQ.Qed.Iwarp.Buffers

/-!
# Every receive buffer has one owner

The steps of the MPA receive path keep each buffer in one place, if they are sound: LL2 gives no
error but busy, a packet fits with the part of the FPDU it adds to, no FPDU has eight bytes, no FPDU
goes over more than two packets, and no part of an FPDU is flushed. In each of the other cases a
buffer is lost, or a fragment is posted that points to a buffer that was given back.
-/

namespace FastLinQ.Qed

open Places Function List MpaSys TxPkt MpaState IwarpFpdu Option

/-! ## The steps of the system -/

/-- A packet waits for the end of the FPDU that is kept in the buffer. -/
def MpaSys.Waits (cfg : IwarpCfg) (s : MpaSys) (b : ℕ) : Prop :=
  ∃ pkt rest i, s.pending = pkt :: rest ∧ cfg.getCurrFpdu pkt.cid = some i ∧
    (s.fpdus i).held = some b ∧ (s.fpdus i).incompleteBytes = pkt.tcpPayloadLen

/-- What every step keeps. A buffer has a `piggy_buf` only if it is attached, or if its FPDU ends
with the first pending packet, and LL2 was busy. -/
structure MpaSys.Inv (cfg : IwarpCfg) (n : ℕ) (s : MpaSys) : Prop where
  one : ∀ b, s.pendingBufs.count b + (s.held cfg).count b + s.attached.count b +
    s.ring.count b = if b < n then 1 else 0
  fresh : s.stale = false
  piggy : ∀ b, s.piggy b ≠ none → (∃ p ∈ s.posted, p.cookie = some b) ∨ s.Waits cfg b
  frag : ∀ i, (s.fpdus i).Partial → (s.fpdus i).mpaFrag.buf = (s.fpdus i).mpaBuf
  le : ∀ i, (s.fpdus i).incompleteBytes ≤ qedIwarpInvalidFpduLength
  len : ∀ pkt ∈ s.pending, pkt.tcpPayloadLen < qedIwarpInvalidFpduLength

namespace MpaSys

variable {cfg : IwarpCfg} {n : ℕ} {s : MpaSys} {pkt : MpaBuf} {rest : List MpaBuf} {i b : ℕ}

theorem Inv.owned (h : s.Inv cfg n) : s.Owned cfg n :=
  ⟨fun b hb => by rw [h.one, if_pos hb], h.fresh⟩

theorem Inv.sum_le_one (h : s.Inv cfg n) (b : ℕ) :
    s.pendingBufs.count b + (s.held cfg).count b + s.attached.count b + s.ring.count b ≤ 1 := by
  rw [h.one]
  split <;> omega

theorem Inv.of_pending (h : s.Inv cfg n) (hb : b ∈ s.pendingBufs) :
    b ∉ s.held cfg ∧ b ∉ s.attached ∧ b ∉ s.ring := by
  have := h.sum_le_one b
  have := one_le_count_iff.2 hb
  refine ⟨?_, ?_, ?_⟩ <;> exact count_eq_zero.1 (by omega)

theorem Inv.of_held (h : s.Inv cfg n) (hb : b ∈ s.held cfg) : b ∉ s.attached ∧ b ∉ s.ring := by
  have := h.sum_le_one b
  have := one_le_count_iff.2 hb
  refine ⟨?_, ?_⟩ <;> exact count_eq_zero.1 (by omega)

theorem getCurrFpdu_lt {cid : ℕ} (h : cfg.getCurrFpdu cid = some i) :
    i < cfg.maxNumPartialFpdus := by
  rw [IwarpCfg.getCurrFpdu] at h
  split at h
  · rename_i hlt
    exact some.inj h ▸ hlt
  · cases h

theorem mem_attached_of_cookie {p : TxPkt} (hp : p ∈ s.posted) (hb : p.cookie = some b) :
    b ∈ s.attached := by
  refine mem_flatMap.2 ⟨p, hp, ?_⟩
  rw [attached_of_some hb]
  exact mem_cons_self

theorem mem_held (hi : i < cfg.maxNumPartialFpdus) (hb : (s.fpdus i).held = some b) :
    b ∈ s.held cfg := mem_tabled.2 ⟨i, hi, hb⟩

theorem mem_pendingBufs (hp : s.pending = pkt :: rest) : pkt.ll2Buf ∈ s.pendingBufs := by
  rw [pendingBufs, hp]
  exact mem_cons_self

theorem Inv.begins (h : s.Inv cfg n) (hp : s.pending = pkt :: rest)
    (hi : cfg.getCurrFpdu pkt.cid = some i) : (s.load pkt i).Begins := by
  obtain ⟨hheld, hatt, -⟩ := h.of_pending (mem_pendingBufs hp)
  refine ⟨rfl, rfl, h.len pkt (by simp [hp]), h.le i, h.frag i,
    fun hb => hheld (mem_held (getCurrFpdu_lt hi) hb), ?_, fun b hb hpiggy => ?_⟩
  · by_contra hpiggy
    rcases h.piggy _ hpiggy with ⟨p, hpost, hcookie⟩ | ⟨pkt', rest', j, -, hj, hb, -⟩
    · exact hatt (mem_attached_of_cookie hpost hcookie)
    · exact hheld (mem_held (getCurrFpdu_lt hj) hb)
  · rcases h.piggy b hpiggy with ⟨p, hpost, hcookie⟩ | ⟨pkt', rest', j, hp', hj, -, hlen⟩
    · exact absurd (mem_attached_of_cookie hpost hcookie)
        (h.of_held (mem_held (getCurrFpdu_lt hi) hb)).1
    · obtain ⟨rfl, -⟩ : pkt = pkt' ∧ _ := by simpa [hp] using hp'
      obtain rfl : i = j := some.inj (hi.symm.trans hj)
      exact hlen

variable {t : MpaState}

/-- The state after a turn for a packet of a known connection. -/
theorem turn_of_known {env : MpaEnv} (hp : s.pending = pkt :: rest)
    (hi : cfg.getCurrFpdu pkt.cid = some i) (ht : (s.load pkt i).turn cfg.buffSize env = t)
    (hrc : t.rc ≠ .error) :
    ∃ active, s.turn cfg env =
      { s.store pkt i t with pending := t.left ++ rest, active := active } := by
  rw [turn, hp]
  simp only [hi, ht]
  cases hcase : t.rc with
  | error => exact absurd hcase hrc
  | busy => exact ⟨false, by rw [left_of_busy hcase]; rfl⟩
  | ok =>
    by_cases hlen : t.pkt.tcpPayloadLen = 0
    · exact ⟨!rest.isEmpty, by rw [left_of_zero hcase hlen, if_pos hlen]; rfl⟩
    · exact ⟨s.active, by rw [left_of_ne hlen, if_neg hlen]; rfl⟩

/-- The buffers of packets that were posted before are still attached to them. -/
theorem Inv.attached_store (h : s.Inv cfg n) (hi : i < cfg.maxNumPartialFpdus)
    (hm : (s.load pkt i).Moved t) :
    s.posted.flatMap (TxPkt.attached t.piggy) = s.attached := by
  refine flatMap_congr fun p hp => ?_
  cases hc : p.cookie with
  | none => rw [attached_of_none hc, attached_of_none hc]
  | some c =>
    rw [attached_of_some hc, attached_of_some hc]
    congr 2
    exact hm.piggy c fun hheld =>
      (h.of_held (mem_held hi hheld)).1 (mem_attached_of_cookie hp hc)

theorem count_held_update (s : MpaSys) (hi : i < cfg.maxNumPartialFpdus) (fpdu : IwarpFpdu)
    (b : ℕ) :
    (tabled (fun j => (update s.fpdus i fpdu j).held) cfg.maxNumPartialFpdus).count b +
        (s.fpdus i).held.toList.count b =
      (s.held cfg).count b + fpdu.held.toList.count b := by
  have hupd : (fun j => (update s.fpdus i fpdu j).held) =
      update (fun j => (s.fpdus j).held) i fpdu.held :=
    funext (apply_update (fun _ => IwarpFpdu.held) s.fpdus i fpdu)
  rw [hupd]
  exact count_tabled_update (fun j => (s.fpdus j).held) hi fpdu.held b

section

variable (h : s.Inv cfg n)

include h

/-- The fragments that a turn posts are in buffers that it has. -/
theorem Inv.usable (hp : s.pending = pkt :: rest) (hi : i < cfg.maxNumPartialFpdus)
    (hm : (s.load pkt i).Moved t) :
    ∀ p ∈ t.txs, ∀ f ∈ p.frags, s.Usable pkt i f.addr.buf := by
  intro p hpt f hf
  rcases hm.frags p hpt f hf with hb | hb
  · obtain ⟨-, hatt, hring⟩ := h.of_pending (mem_pendingBufs hp)
    refine ⟨.inl hb, ?_, ?_⟩ <;> rw [hb]
    · exact hring
    · exact hatt
  · obtain ⟨hatt, hring⟩ := h.of_held (mem_held hi hb)
    exact ⟨.inr hb, hring, hatt⟩

theorem Inv.store (hp : s.pending = pkt :: rest) (hi : cfg.getCurrFpdu pkt.cid = some i)
    (hm : (s.load pkt i).Moved t) (active : Bool) :
    Inv cfg n { s.store pkt i t with pending := t.left ++ rest, active := active } := by
  have hlt := getCurrFpdu_lt hi
  refine ⟨fun b => ?_, ?_, fun b hb => ?_,
    (forall_update_iff _ fun _ (f : IwarpFpdu) => f.Partial → f.mpaFrag.buf = f.mpaBuf).2
      ⟨hm.frag, fun j _ => h.frag j⟩,
    (forall_update_iff _ fun _ (f : IwarpFpdu) => f.incompleteBytes ≤ _).2
      ⟨hm.le, fun j _ => h.le j⟩,
    forall_mem_append.2 ⟨fun q hq => ?_, fun q hq => h.len q (by simp [hp, hq])⟩⟩
  · have hone := h.one b
    have hcount := hm.count b
    have hupd := count_held_update s hlt t.fpdu b
    rw [pendingBufs, hp, map_cons, ← singleton_append, count_append] at hone
    change count b ((t.left ++ rest).map _) +
      (tabled (fun j => (update s.fpdus i t.fpdu j).held) _).count b +
      count b ((s.posted ++ t.txs).flatMap (TxPkt.attached t.piggy)) + s.ring.count b = _
    rw [map_append, flatMap_append, h.attached_store hlt hm, count_append, count_append]
    change [pkt.ll2Buf].count b + (s.fpdus i).held.toList.count b =
      (t.left.map MpaBuf.ll2Buf).count b + _ + _ at hcount
    omega
  · change (s.stale || !decide _) = false
    rw [h.fresh, decide_eq_true (h.usable hp hlt hm)]
    rfl
  · by_cases hheld : (s.fpdus i).held = some b
    · rcases hm.waits b hheld hb with ⟨p, hpt, hcookie⟩ | ⟨hb', hlen⟩
      · exact .inl ⟨p, mem_append_right _ hpt, hcookie⟩
      · -- the packet stays, since something of the FPDU is missing
        have hpart : t.pkt.tcpPayloadLen ≠ 0 := by
          rw [← hlen]
          exact partial_of_held hb'
        refine .inr ⟨t.pkt, rest, i, by rw [left_of_ne hpart]; rfl, ?_, ?_, ?_⟩
        · rw [hm.cid]
          exact hi
        · exact (congrArg IwarpFpdu.held (update_self ..)).trans hb'
        · exact (congrArg incompleteBytes (update_self ..)).trans hlen
    · have hsame : t.piggy b = s.piggy b := hm.piggy b hheld
      rcases h.piggy b (hsame ▸ hb) with ⟨p, hpost, hcookie⟩ | ⟨pkt', rest', j, hp', hj, hb', -⟩
      · exact .inl ⟨p, mem_append_left _ hpost, hcookie⟩
      · obtain ⟨rfl, -⟩ : pkt = pkt' ∧ _ := by simpa [hp] using hp'
        obtain rfl : i = j := some.inj (hi.symm.trans hj)
        exact absurd hb' hheld
  · rw [mem_left hq]
    exact hm.len.trans_lt (h.len pkt (by simp [hp]))

theorem Inv.turn {env : MpaEnv} (hok : (MpaStep.turn env).Sound cfg s) :
    (s.turn cfg env).Inv cfg n := by
  match hp : s.pending with
  | [] =>
    rw [MpaSys.turn]
    split
    · exact { h with }
    · simp_all
  | pkt :: rest =>
    cases hi : cfg.getCurrFpdu pkt.cid with
    | some i =>
      have hm := (h.begins hp hi).turn (hok pkt (by rw [hp]; rfl) i hi)
      obtain ⟨active, hturn⟩ := turn_of_known hp hi rfl hm.rc
      rw [hturn]
      exact h.store hp hi hm active
    | none =>
      rw [MpaSys.turn, hp]
      simp only [hi]
      refine ⟨fun b => ?_, h.fresh, fun b hb => ?_, h.frag, h.le,
        fun q hq => h.len q (by simp [hp, hq])⟩
      · have hone := h.one b
        rw [pendingBufs, hp, map_cons, ← singleton_append, count_append] at hone
        change count b (rest.map _) + _ + _ + count b (s.ring ++ [pkt.ll2Buf]) = _
        rw [count_append]
        change _ + (s.held cfg).count b + s.attached.count b + _ = _
        omega
      · rcases h.piggy b hb with hpost | ⟨pkt', rest', j, hp', hj, -⟩
        · exact .inl hpost
        · obtain ⟨rfl, -⟩ : pkt = pkt' ∧ _ := by simpa [hp] using hp'
          rw [hi] at hj
          cases hj

theorem Inv.compMpaPkt {data : ℕ → BitVec 8} (hok : (MpaStep.compMpaPkt pkt data).Sound cfg s) :
    (s.compMpaPkt pkt data).Inv cfg n := by
  rw [MpaSys.compMpaPkt]
  split
  · rename_i hring
    refine ⟨fun b => ?_, h.fresh, fun b hb => ?_, h.frag, h.le,
      forall_mem_append.2 ⟨h.len, forall_mem_singleton.2 ?_⟩⟩
    · have hone := h.one b
      have hpos := one_le_count_iff.2 hring
      change count b ((s.pending ++ [pkt]).map _) + (s.held cfg).count b + s.attached.count b +
        (s.ring.erase pkt.ll2Buf).count b = _
      rw [count_erase, map_append, count_append, ← hone, pendingBufs, map_singleton]
      by_cases heq : pkt.ll2Buf = b
      · subst heq
        simp
        omega
      · simp [heq]
    · rcases h.piggy b hb with hpost | ⟨pkt', rest', j, hp', hw⟩
      · exact .inl hpost
      · exact .inr ⟨pkt', rest' ++ [pkt], j, congrArg (· ++ [pkt]) hp', hw⟩
    · obtain ⟨hpos, hin⟩ := hok
      rw [qedIwarpInvalidFpduLength]
      omega
  · exact h

/-- A transmit packet is completed: the buffers that are attached to it are given back. -/
theorem Inv.compTxPkt : s.compTxPkt.Inv cfg n := by
  match hp : s.posted with
  | [] =>
    rw [MpaSys.compTxPkt, hp]
    exact h
  | p :: rest =>
    have hatt : s.attached = p.attached s.piggy ++ rest.flatMap (TxPkt.attached s.piggy) := by
      rw [attached, hp, flatMap_cons]
    have htail : ∀ b, p.cookie ≠ some b → (∃ q ∈ s.posted, q.cookie = some b) →
        ∃ q ∈ rest, q.cookie = some b := by
      rintro b hne ⟨q, hq, hcookie⟩
      rw [hp] at hq
      rcases mem_cons.1 hq with rfl | hq
      · exact absurd hcookie hne
      · exact ⟨q, hq, hcookie⟩
    cases hc : p.cookie with
    | none =>
      rw [attached_of_none hc] at hatt
      rw [MpaSys.compTxPkt, hp]
      simp only [hc]
      refine ⟨fun b => ?_, h.fresh, fun b hb => ?_, h.frag, h.le, h.len⟩
      · have hone := h.one b
        rw [hatt] at hone
        exact hone
      · exact (h.piggy b hb).imp_left (htail b (by rw [hc]; nofun))
    | some c =>
      rw [attached_of_some hc] at hatt
      -- no other packet has this cookie
      have hother : ∀ q ∈ rest, q.cookie ≠ some c := by
        intro q hq hcookie
        have hmem : c ∈ rest.flatMap (TxPkt.attached s.piggy) := by
          refine mem_flatMap.2 ⟨q, hq, ?_⟩
          rw [attached_of_some hcookie]
          exact mem_cons_self
        have hsum := h.sum_le_one c
        have hpos := one_le_count_iff.2 hmem
        rw [hatt, count_append, count_cons_self] at hsum
        omega
      have hrest : rest.flatMap (TxPkt.attached (update s.piggy c none)) =
          rest.flatMap (TxPkt.attached s.piggy) := by
        refine flatMap_congr fun q hq => ?_
        cases hqc : q.cookie with
        | none => rw [attached_of_none hqc, attached_of_none hqc]
        | some d =>
          have hne : d ≠ c := fun he => hother q hq (he ▸ hqc)
          rw [attached_of_some hqc, attached_of_some hqc, update_of_ne hne]
      rw [MpaSys.compTxPkt, hp]
      simp only [hc]
      refine ⟨fun b => ?_, h.fresh, fun b hb => ?_, h.frag, h.le, h.len⟩
      · have hone := h.one b
        rw [hatt, count_append, ← singleton_append, count_append] at hone
        change s.pendingBufs.count b + (s.held cfg).count b + count b (rest.flatMap _) +
          count b (s.ring ++ _ ++ [c]) = _
        rw [hrest, count_append, count_append]
        omega
      · have hne : b ≠ c := fun he => hb (by rw [he]; exact update_self ..)
        have hb' : s.piggy b ≠ none := fun h0 => hb ((update_of_ne hne ..).trans h0)
        exact (h.piggy b hb').imp_left
          (htail b (by rw [hc]; exact fun he => hne (some.inj he).symm))

theorem Inv.slowpath {cid : ℕ} (hok : (MpaStep.slowpath cid).Sound cfg s) :
    (s.slowpath cfg cid).Inv cfg n := by
  rw [MpaSys.slowpath]
  split
  · exact h
  · rename_i i hi
    have hlt := getCurrFpdu_lt hi
    have hnone : (s.fpdus i).held = none := if_neg (hok i hi)
    have hheld : ∀ j b, (s.fpdus j).held = some b → j ≠ i := by
      rintro j b hb rfl
      rw [hnone] at hb
      cases hb
    refine ⟨fun b => ?_, h.fresh, fun b hb => ?_,
      (forall_update_iff _ fun _ (f : IwarpFpdu) => f.Partial → f.mpaFrag.buf = f.mpaBuf).2
        ⟨nofun, fun j _ => h.frag j⟩,
      (forall_update_iff _ fun _ (f : IwarpFpdu) => f.incompleteBytes ≤ _).2
        ⟨Nat.zero_le _, fun j _ => h.le j⟩, h.len⟩
    · have hupd := count_held_update s hlt .cleared b
      rw [hnone, held_cleared, Nat.add_right_cancel_iff] at hupd
      change s.pendingBufs.count b +
        (tabled (fun j => (update s.fpdus i .cleared j).held) _).count b +
        s.attached.count b + s.ring.count b = _
      rw [hupd]
      exact h.one b
    · refine (h.piggy b hb).imp_right fun ⟨pkt, rest, j, hp, hj, hb, hlen⟩ => ?_
      have hsame : update s.fpdus i .cleared j = s.fpdus j := update_of_ne (hheld j b hb) ..
      exact ⟨pkt, rest, j, hp, hj, (congrArg _ hsame).trans hb, (congrArg _ hsame).trans hlen⟩

theorem Inv.step (e : MpaStep) (hok : e.Sound cfg s) : (s.step cfg e).Inv cfg n := by
  cases e <;> rw [MpaSys.step] <;> split
  case turn.isTrue => exact h.turn hok
  case compMpaPkt.isFalse => exact h.compMpaPkt hok
  case compTxPkt.isFalse => exact h.compTxPkt
  case slowpath.isFalse => exact h.slowpath hok
  all_goals exact h

end

theorem inv_init (cfg : IwarpCfg) (n : ℕ) (mem : ℕ → ℕ → BitVec 8) :
    (init n mem).Inv cfg n := by
  refine ⟨fun b => ?_, rfl, nofun, nofun, fun _ => Nat.zero_le _, nofun⟩
  have hheld : (init n mem).held cfg = [] := filterMap_eq_nil_iff.2 fun _ _ => rfl
  rw [hheld]
  change 0 + 0 + 0 + (range n).count b = _
  rw [Nat.zero_add, nodup_range.count]
  simp [mem_range]

/-! ## Every run -/

/-- **Every buffer has one owner** in every run whose steps are sound, and no fragment points to a
buffer that was given back or attached before. -/
theorem owned_of_sound (cfg : IwarpCfg) (n : ℕ) (mem : ℕ → ℕ → BitVec 8) (l : List MpaStep)
    (hl : Run.Meets (fun s e => e.Sound cfg s) (step cfg) (init n mem) l) :
    (l.foldl (step cfg) (init n mem)).Owned cfg n :=
  (hl.invariant (fun _ e h => h.step e) (inv_init cfg n mem)).owned

end MpaSys

/-- One connection with buffers of 64 bytes. -/
def smallIwarp : IwarpCfg := ⟨64, 1, 0⟩

/-- A segment behind a header of ten bytes. -/
def segment (buf len : ℕ) : MpaBuf := ⟨buf, 10, 10, false, 0, len, 0⟩

/-- The begin of an FPDU with an MPA length below 256. -/
def fpduData (mpaLen : BitVec 8) (k : ℕ) : BitVec 8 := if k = 11 then mpaLen else 0

/-- The run over segments of one FPDU, each in a buffer of its own. -/
def segmentRun (mpaLen : BitVec 8) (lens : List ℕ) : List MpaStep :=
  lens.zipIdx.flatMap fun p => [.compMpaPkt (segment p.2 p.1) (fpduData mpaLen), .turn .allOk]

/-- The state after a run that begins with as many buffers. -/
def smallState (bufs : ℕ) (l : List MpaStep) : MpaSys :=
  l.foldl (step smallIwarp) (init bufs fun _ _ => 0)

/-- An FPDU in two segments: both buffers are attached, and then given back. -/
theorem owned_two_segments :
    (smallState 2 (segmentRun 6 [5, 7])).attached = [0, 1] ∧
      (smallState 2 (segmentRun 6 [5, 7] ++ [.compTxPkt])).ring = [1, 0] ∧
      (smallState 2 (segmentRun 6 [5, 7] ++ [.compTxPkt])).Owned smallIwarp 2 :=
  ⟨by decide +kernel, by decide +kernel,
    owned_of_sound smallIwarp 2 (fun _ _ => 0) _ (by decide +kernel)⟩

/-- A packet with an FPDU of eight bytes is dropped, but its buffer is not given back; and the end
of an FPDU in three segments is handed over with a header in the buffer of the first one, which was
attached before. -/
theorem not_owned_of_unsound :
    ((smallState 1 (segmentRun 0 [8])).pendingBufs = [] ∧
      (smallState 1 (segmentRun 0 [8])).held smallIwarp = [] ∧
      (smallState 1 (segmentRun 0 [8])).attached = [] ∧
      (smallState 1 (segmentRun 0 [8])).ring = []) ∧
    ¬ (smallState 1 (segmentRun 0 [8])).Owned smallIwarp 1 ∧
    (smallState 3 (segmentRun 6 [4, 4])).attached = [0] ∧
    ((smallState 3 (segmentRun 6 [4, 4, 4])).posted.map fun p => p.frags.map (·.addr.buf)) =
      [[0], [0, 1, 2]] ∧
    ¬ (smallState 3 (segmentRun 6 [4, 4, 4])).Owned smallIwarp 3 := by
  refine ⟨by decide +kernel, fun h => ?_, by decide +kernel, by decide +kernel, fun h => ?_⟩
  · exact absurd (h.one 0 (by decide)) (by decide +kernel)
  · exact absurd h.fresh (by decide +kernel)

end FastLinQ.Qed
