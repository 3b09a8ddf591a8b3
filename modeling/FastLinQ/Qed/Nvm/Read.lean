import FastLinQ.Qed.Nvm.Basic

/-!
# What an NVM read copies

`qed_mcp_nvm_read` copies as many bytes for a command as the MFW says, not as many as it has asked
for or as it has got. `NvmReadFair` says which replies are fine: no answer goes beyond the end of
the buffer, the answers do not stay empty for ever, and none of those that fill the buffer is longer
than `raw_data` or is for an address that does not fit in the 24 bits of the command's offset.

`nvmReadSafe_iff`: these are the replies with which the function ends, writes to the buffer only,
and has filled it with the bytes of the NVM addresses asked for.
-/

namespace FastLinQ.Qed

open List Nat NvmRead BitVec Loop

/-! ## What is asked for -/

/-- The bytes that were returned for an NVM address. The address of a copy is the one in the
command. -/
def NvmRead.returned (s : NvmRead) (a : ℕ) : Set (BitVec 8) :=
  { b | ∃ c ∈ s.copies, ∃ j : Fin mcpDrvNvmBufLen, (j : ℕ) < c.size ∧
    (getMfwField c.param drvMbParamNvmOffset).toNat + j = a ∧ c.rawData j = b }

/-- The function ends, writes to `p_buf[0..len)` only, and has filled it on success. -/
structure NvmReadSafe (addr len : BitVec 32) (run : ℕ → NvmRead) : Prop where
  ends : ∃ n, (run n).Finished
  inside : ∀ n, ∀ c ∈ (run n).copies, ∀ k, c.Writes k → k < len.toNat
  filled : addr.toNat < 2 ^ 24 → len.toNat < 2 ^ 24 → ∀ n, (run n).Finished → (run n).rc = none →
      ∀ k < len.toNat, (run n).returned (addr.toNat + k) = { (run n).mem k }

/-- The loop goes on with this reply. -/
def NvmReply.ReadOk : NvmReply → Prop
  | .answer a => a.resp = fwMsgCodeNvmOk
  | .error _ _ => False

/-- The number of bytes that the first `n` replies are for. -/
def nvmServed (replies : ℕ → NvmReply) (n : ℕ) : ℕ := ∑ i ∈ Finset.range n, (replies i).param.toNat

structure NvmReadFair (addr len : BitVec 32) (replies : ℕ → NvmReply) : Prop where
  /-- no answer goes beyond the end of the buffer -/
  fits : ∀ n a, (∀ i < n, (replies i).ReadOk) → nvmServed replies n < len.toNat →
    replies n = .answer a → nvmServed replies n + a.param.toNat ≤ len.toNat
  /-- the buffer is filled some time, or there is an error -/
  ends : ∃ n, (∀ i < n, (replies i).ReadOk) ∧
    (nvmServed replies n = len.toNat ∨ ¬ (replies n).ReadOk)
  /-- the answers that fill the buffer fit in `raw_data`, and their addresses in the command -/
  exact : addr.toNat < 2 ^ 24 → len.toNat < 2 ^ 24 →
    ∀ n, (∀ i < n, (replies i).ReadOk) → nvmServed replies n = len.toNat →
      ∀ i < n, (replies i).param = 0 ∨
        (replies i).param.toNat ≤ mcpDrvNvmBufLen ∧ addr.toNat + nvmServed replies i < 2 ^ 24

section Served

variable {addr len : BitVec 32} {replies : ℕ → NvmReply} {stack : ℕ → BitVec 8} {s : NvmRead}
    {n : ℕ}

theorem nvmServed_succ (replies : ℕ → NvmReply) (n : ℕ) :
    nvmServed replies (n + 1) = nvmServed replies n + (replies n).param.toNat :=
  Finset.sum_range_succ _ n

theorem nvmServed_mono (replies : ℕ → NvmReply) : Monotone (nvmServed replies) :=
  monotone_nat_of_le_succ fun n => by simp [nvmServed_succ]

/-- A byte that was served belongs to one of the replies. -/
theorem exists_nvmServed {k : ℕ} (hk : k < nvmServed replies n) :
    ∃ i < n, nvmServed replies i ≤ k ∧ k < nvmServed replies i + (replies i).param.toNat := by
  induction n with
  | zero => simp [nvmServed] at hk
  | succ n ih =>
    by_cases hn : k < nvmServed replies n
    · obtain ⟨i, hi, h⟩ := ih hn
      exact ⟨i, by omega, h⟩
    · rw [nvmServed_succ] at hk
      exact ⟨n, by omega, by omega, hk⟩

/-! ## One turn -/

/-- A copy belongs to the reply `i`. -/
structure NvmCopy.Of (addr : BitVec 32) (replies : ℕ → NvmReply) (i : ℕ) (c : NvmCopy) : Prop where
  dst : c.dst = nvmServed replies i
  size : c.size = (replies i).param.toNat
  offset : (getMfwField c.param drvMbParamNvmOffset).toNat =
    (addr.toNat + nvmServed replies i) % 2 ^ 24

theorem NvmCopy.Of.le {c : NvmCopy} {i : ℕ} (h : c.Of addr replies i) (hi : i < n) :
    c.dst + c.size ≤ nvmServed replies n := by
  rw [h.dst, h.size, ← nvmServed_succ]
  exact nvmServed_mono replies hi

/-- What the loop looks like after `n` turns in which it has not ended. -/
structure NvmRead.Served (addr len : BitVec 32) (replies : ℕ → NvmReply) (n : ℕ) (s : NvmRead) :
    Prop where
  broke : s.broke = false
  rc : s.rc = none
  offset : s.offset.toNat = nvmServed replies n
  left : s.bytesLeft.toNat + nvmServed replies n = len.toNat
  copy : ∀ c ∈ s.copies, ∃ i < n, c.Of addr replies i
  copied : ∀ i < n, ∃ c ∈ s.copies, c.Of addr replies i
  mem : ∀ c ∈ s.copies, ∀ j : Fin mcpDrvNvmBufLen, (j : ℕ) < c.size →
    s.mem (c.dst + j) = c.rawData j

namespace NvmRead.Served

theorem start (addr len : BitVec 32) (mem : ℕ → BitVec 8) (replies : ℕ → NvmReply) :
    (start true len mem).Served addr len replies 0 :=
  ⟨rfl, rfl, rfl, rfl, nofun, fun _ hi => absurd hi (not_lt_zero _), nofun⟩

section

variable (h : s.Served addr len replies n)

include h

theorem finished_iff : s.Finished ↔ nvmServed replies n = len.toNat := by
  have hleft := h.left
  have hzero : s.bytesLeft = 0 ↔ s.bytesLeft.toNat = 0 := (toNat_inj).symm
  rw [Finished, h.broke, hzero]
  simp only [Bool.false_eq_true, false_or]
  omega

/-- The copy for the next answer. -/
theorem copy_of {a : NvmAnswer} (ha : replies n = .answer a) :
    (s.copy addr a).Of addr replies n := by
  refine ⟨h.offset, by rw [ha]; rfl, ?_⟩
  change (getMfwField (s.request addr) _).toNat = _
  rw [request, getMfwField_offset_setMfwField, toNat_getMfwField_offset, toNat_add, h.offset]
  omega

theorem turn {a : NvmAnswer} (ha : replies n = .answer a) (hok : a.resp = fwMsgCodeNvmOk)
    (hfit : nvmServed replies (n + 1) ≤ len.toNat) :
    (s.turn addr stack (.answer a)).Served addr len replies (n + 1) := by
  have hserved : nvmServed replies (n + 1) = nvmServed replies n + a.param.toNat := by
    rw [nvmServed_succ, ha]
    rfl
  have hleft := h.left
  have hcopy := h.copy_of ha
  rw [NvmRead.turn, if_pos hok]
  refine ⟨h.broke, h.rc, ?_, ?_, ?_, ?_, ?_⟩
  · rw [toNat_add, h.offset, hserved, mod_eq_of_lt (by omega)]
  · rw [toNat_sub_of_le (by rw [le_def]; omega)]
    omega
  · refine forall_mem_append.2 ⟨fun c hc => ?_, forall_mem_singleton.2 ⟨n, by omega, hcopy⟩⟩
    obtain ⟨i, hi, hof⟩ := h.copy c hc
    exact ⟨i, by omega, hof⟩
  · intro i hi
    rcases Nat.lt_succ_iff_lt_or_eq.1 hi with hi | rfl
    · obtain ⟨c, hc, hof⟩ := h.copied i hi
      exact ⟨c, mem_append_left _ hc, hof⟩
    · exact ⟨_, mem_append_right _ (mem_singleton.2 rfl), hcopy⟩
  · refine forall_mem_append.2 ⟨fun c hc j hj => ?_, forall_mem_singleton.2 fun j hj => ?_⟩
    · -- an earlier copy ends before the one of this turn begins
      obtain ⟨i, hi, hof⟩ := h.copy c hc
      have hle := hof.le hi
      have hnot : ¬ (s.copy addr a).Writes (c.dst + j) := fun hw => by
        have := hw.1
        rw [hcopy.dst] at this
        omega
      exact (if_neg hnot).trans (h.mem c hc j hj)
    · have hw : (s.copy addr a).Writes ((s.copy addr a).dst + j) := ⟨by omega, by omega⟩
      simp [NvmCopy.memcpy, hw]

/-! ## The bytes in the buffer -/

end

/-- The copies of two replies do not overlap. -/
theorem eq_of_writes {c c' : NvmCopy} {i i' k : ℕ} (hc : c.Of addr replies i)
    (hc' : c'.Of addr replies i') (hk : c.Writes k) (hk' : c'.Writes k) : i = i' := by
  have key : ∀ {c c' : NvmCopy} {i i'}, c.Of addr replies i → c'.Of addr replies i' →
      c.Writes k → c'.Writes k → ¬ i < i' := by
    intro c c' i i' hc hc' hk hk' hlt
    have hle := hc.le hlt
    rw [← hc'.dst] at hle
    have := hk.2
    have := hk'.1
    omega
  exact le_antisymm (not_lt.1 (key hc' hc hk' hk)) (not_lt.1 (key hc hc' hk hk'))

/-- **The buffer is filled** with the bytes of the addresses asked for, if the answers fit. -/
theorem filled (h : s.Served addr len replies n) (hn : nvmServed replies n = len.toNat)
    (hfit : ∀ i < n, (replies i).param = 0 ∨
      (replies i).param.toNat ≤ mcpDrvNvmBufLen ∧ addr.toNat + nvmServed replies i < 2 ^ 24)
    {k : ℕ} (hk : k < len.toNat) : s.returned (addr.toNat + k) = { s.mem k } := by
  -- a copy that is not empty is for the address it is copied to
  have haddr : ∀ i < n, ∀ c : NvmCopy, c.Of addr replies i → 0 < c.size → c.size ≤ mcpDrvNvmBufLen ∧
        (getMfwField c.param drvMbParamNvmOffset).toNat = addr.toNat + c.dst := by
    intro i hi c hof hpos
    rw [hof.offset, hof.dst]
    rcases hfit i hi with h0 | ⟨h32, h24⟩
    · rw [hof.size, h0] at hpos
      simp at hpos
    · rw [mod_eq_of_lt h24, hof.size]
      exact ⟨h32, rfl⟩
  refine Set.eq_singleton_iff_unique_mem.2 ⟨?_, ?_⟩
  · obtain ⟨i, hi, hle, hlt⟩ := exists_nvmServed (hn ▸ hk)
    obtain ⟨c, hc, hof⟩ := h.copied i hi
    rw [← hof.dst, ← hof.size] at hlt
    rw [← hof.dst] at hle
    obtain ⟨h32, hoff⟩ := haddr i hi c hof (by omega)
    refine ⟨c, hc, ⟨k - c.dst, by omega⟩, ?_, ?_, ?_⟩
    · change k - c.dst < c.size
      omega
    · change _ + (k - c.dst) = _
      omega
    · rw [← h.mem c hc ⟨k - c.dst, by omega⟩ (by change k - c.dst < c.size; omega)]
      congr 1
      change c.dst + (k - c.dst) = k
      omega
  · rintro b ⟨c, hc, j, hj, hoff, rfl⟩
    obtain ⟨i, hi, hof⟩ := h.copy c hc
    rw [(haddr i hi c hof (by omega)).2] at hoff
    rw [← h.mem c hc j hj]
    congr 1
    omega

/-- The answers fit, if the buffer is filled with the bytes of the addresses asked for. -/
theorem fit_of_filled (h : s.Served addr len replies n) (hn : nvmServed replies n = len.toNat)
    (hlen : len.toNat < 2 ^ 24)
    (hfill : ∀ k < len.toNat, (s.returned (addr.toNat + k)).Nonempty) {i : ℕ} (hi : i < n) :
    (replies i).param = 0 ∨
      (replies i).param.toNat ≤ mcpDrvNvmBufLen ∧ addr.toNat + nvmServed replies i < 2 ^ 24 := by
  rw [or_iff_not_imp_left]
  intro h0
  obtain ⟨c, hc, hof⟩ := h.copied i hi
  have hpos : 0 < c.size := by
    rw [hof.size]
    exact pos_of_ne_zero fun h => h0 (eq_of_toNat_eq h)
  have hend := hof.le hi
  -- a byte of this copy was returned for its address by this copy, and by none that has wrapped
  have key : ∀ j < c.size, j < mcpDrvNvmBufLen ∧ addr.toNat + c.dst < 2 ^ 24 := by
    intro j hj
    obtain ⟨-, c', hc', j', hj', hoff, -⟩ := hfill (c.dst + j) (by omega)
    obtain ⟨i', hi', hof'⟩ := h.copy c' hc'
    have hend' := hof'.le hi'
    rw [hof'.offset, ← hof'.dst] at hoff
    by_cases hwrap : addr.toNat + c'.dst < 2 ^ 24
    · have : i' = i := eq_of_writes hof' hof (k := c.dst + j) ⟨by omega, by omega⟩
        ⟨by omega, by omega⟩
      subst this
      have hdst : c'.dst = c.dst := hof'.dst.trans hof.dst.symm
      exact ⟨by omega, by omega⟩
    · omega
  refine ⟨?_, ?_⟩
  · rw [← hof.size]
    by_contra hlt
    exact absurd (key mcpDrvNvmBufLen (by omega)).1 (lt_irrefl _)
  · rw [← hof.dst]
    exact (key 0 hpos).2

end NvmRead.Served

end Served

/-! ## The whole loop -/

section Run

variable {addr len : BitVec 32} {mem stack : ℕ → BitVec 8} {replies : ℕ → NvmReply}

theorem NvmReply.ReadOk.answer {r : NvmReply} (h : r.ReadOk) :
    ∃ a, r = .answer a ∧ a.resp = fwMsgCodeNvmOk := by
  cases r with
  | answer a => exact ⟨a, rfl, h⟩
  | error rc sent => exact absurd h id

/-- The loop goes on for `n` turns. -/
def NvmReadLive (len : BitVec 32) (replies : ℕ → NvmReply) (n : ℕ) : Prop :=
  ∀ i < n, (replies i).ReadOk ∧ nvmServed replies i < len.toNat ∧
    nvmServed replies (i + 1) ≤ len.toNat

theorem NvmReadLive.served (addr : BitVec 32) (mem stack : ℕ → BitVec 8) {n : ℕ}
    (h : NvmReadLive len replies n) :
    (qedMcpNvmRead true addr len mem stack replies n).Served addr len replies n := by
  refine track (P := fun i s => Served addr len replies i s) (.start addr len mem replies) ?_
  intro i hi s hs
  obtain ⟨hok, hlt, hfit⟩ := h i hi
  obtain ⟨a, ha, hresp⟩ := hok.answer
  refine ⟨?_, ?_⟩
  · rw [hs.finished_iff]
    omega
  · rw [ha]
    exact hs.turn ha hresp hfit

/-- Replies that fit keep the loop going until the buffer is filled. -/
theorem NvmReadLive.of_fits {n : ℕ} (hok : ∀ i < n, (replies i).ReadOk)
    (hne : ∀ i < n, nvmServed replies i ≠ len.toNat)
    (hfits : ∀ i < n, ∀ a, nvmServed replies i < len.toNat → replies i = .answer a →
      nvmServed replies i + a.param.toNat ≤ len.toNat) : NvmReadLive len replies n := by
  have hle : ∀ i ≤ n, nvmServed replies i ≤ len.toNat := by
    intro i hi
    induction i with
    | zero => simp [nvmServed]
    | succ i ih =>
      obtain ⟨a, ha, -⟩ := (hok i hi).answer
      have hlt := lt_of_le_of_ne (ih (by omega)) (hne i hi)
      rw [nvmServed_succ, ha]
      exact hfits i hi a hlt ha
  exact fun i hi => ⟨hok i hi, lt_of_le_of_ne (hle i hi.le) (hne i hi), hle (i + 1) hi⟩

/-- What a turn adds that ends the loop with an error: at most the copy for its answer. -/
theorem NvmRead.turn_of_not_readOk (addr : BitVec 32) (stack : ℕ → BitVec 8) (s : NvmRead)
    {r : NvmReply} (hr : ¬ r.ReadOk) :
    (s.turn addr stack r).broke = true ∧ (s.turn addr stack r).rc ≠ none ∧
      ∀ c ∈ (s.turn addr stack r).copies, c ∈ s.copies ∨
        ∃ a, r = .answer a ∧ c = s.copy addr a := by
  cases r with
  | error rc sent => exact ⟨rfl, nofun, fun c hc => .inl hc⟩
  | answer a =>
    rw [turn, if_neg (show ¬ a.resp = fwMsgCodeNvmOk from hr)]
    refine ⟨rfl, nofun, fun c hc => ?_⟩
    rcases mem_append.1 hc with hc | hc
    · exact .inl hc
    · exact .inr ⟨a, rfl, mem_singleton.1 hc⟩

/-- How the loop ends: filled, or with an error; and all copies are inside the buffer. -/
structure NvmRead.Ended (addr len : BitVec 32) (replies : ℕ → NvmReply) (s : NvmRead) : Prop where
  finished : s.Finished
  inside : ∀ c ∈ s.copies, ∀ k, c.Writes k → k < len.toNat
  served : s.rc = none →
    ∃ n, NvmReadLive len replies n ∧ nvmServed replies n = len.toNat ∧ s.Served addr len replies n

theorem NvmCopy.Of.inside {c : NvmCopy} {i : ℕ} (h : c.Of addr replies i)
    (hfit : nvmServed replies (i + 1) ≤ len.toNat) {k : ℕ} (hk : c.Writes k) : k < len.toNat :=
  hk.2.trans_le ((h.le i.lt_succ_self).trans hfit)

theorem NvmReadLive.inside {n : ℕ} (h : NvmReadLive len replies n) {s : NvmRead}
    (hs : s.Served addr len replies n) : ∀ c ∈ s.copies, ∀ k, c.Writes k → k < len.toNat := by
  intro c hc k hk
  obtain ⟨i, hi, hof⟩ := hs.copy c hc
  exact hof.inside (h i hi).2.2 hk

/-- **The loop over any number of turns**, with replies that fit. -/
theorem NvmReadFair.run (h : NvmReadFair addr len replies) (mem stack : ℕ → BitVec 8) (n : ℕ) :
    (NvmReadLive len replies n ∧
      (qedMcpNvmRead true addr len mem stack replies n).Served addr len replies n) ∨
    (qedMcpNvmRead true addr len mem stack replies n).Ended addr len replies := by
  refine track_or
    (P := fun i s => NvmReadLive len replies i ∧ Served addr len replies i s)
    (D := Ended addr len replies)
    ⟨nofun, .start addr len mem replies⟩ (fun _ _ hD hfin => absurd hD.finished hfin) ?_ ?_ n
  · rintro i s ⟨hlive, hs⟩ hfin
    have hlt : nvmServed replies i < len.toNat := by
      have := hs.left
      rw [hs.finished_iff] at hfin
      omega
    have hfit : ∀ a, replies i = .answer a → nvmServed replies (i + 1) ≤ len.toNat := by
      intro a ha
      rw [nvmServed_succ, ha]
      exact h.fits i a (fun j hj => (hlive j hj).1) hlt ha
    by_cases hok : (replies i).ReadOk
    · obtain ⟨a, ha, hresp⟩ := hok.answer
      refine .inl ⟨fun j hj => ?_, ?_⟩
      · rcases Nat.lt_succ_iff_lt_or_eq.1 hj with hj | rfl
        · exact hlive j hj
        · exact ⟨hok, hlt, hfit a ha⟩
      · rw [ha]
        exact hs.turn ha hresp (hfit a ha)
    · obtain ⟨hbroke, hrc, hcopies⟩ := s.turn_of_not_readOk addr stack hok
      refine .inr ⟨.inl hbroke, fun c hc k hk => ?_, fun hnone => absurd hnone hrc⟩
      rcases hcopies c hc with hc | ⟨a, ha, rfl⟩
      · exact hlive.inside hs c hc k hk
      · exact (hs.copy_of ha).inside (hfit a ha) hk
  · rintro i s ⟨hlive, hs⟩ hfin
    exact ⟨hfin, hlive.inside hs, fun _ => ⟨i, hlive, hs.finished_iff.1 hfin, hs⟩⟩

theorem NvmReadFair.safe (h : NvmReadFair addr len replies) :
    NvmReadSafe addr len (qedMcpNvmRead true addr len mem stack replies) := by
  refine ⟨?_, fun n => ?_, fun haddr hlen n hfin hrc k hk => ?_⟩
  · obtain ⟨n, hok, hn⟩ := h.ends
    rcases h.run mem stack (n + 1) with ⟨hlive, hs⟩ | hend
    · refine ⟨n + 1, ?_⟩
      obtain ⟨hok', hlt, -⟩ := hlive n (by omega)
      exact absurd hn (by simp [hok', hlt.ne])
    · exact ⟨n + 1, hend.finished⟩
  · rcases h.run mem stack n with ⟨hlive, hs⟩ | hend
    · exact hlive.inside hs
    · exact hend.inside
  · have hend : ∃ m, NvmReadLive len replies m ∧ nvmServed replies m = len.toNat ∧
        (qedMcpNvmRead true addr len mem stack replies n).Served addr len replies m := by
      rcases h.run mem stack n with ⟨hlive, hs⟩ | hend
      · exact ⟨n, hlive, hs.finished_iff.1 hfin, hs⟩
      · exact hend.served hrc
    obtain ⟨m, hlive, hm, hs⟩ := hend
    exact hs.filled hm (h.exact haddr hlen m (fun i hi => (hlive i hi).1) hm) hk

theorem NvmReadSafe.fair
    (h : NvmReadSafe addr len (qedMcpNvmRead true addr len mem stack replies)) :
    NvmReadFair addr len replies := by
  have hfits : ∀ n a, (∀ i < n, (replies i).ReadOk) → nvmServed replies n < len.toNat →
      replies n = .answer a → nvmServed replies n + a.param.toNat ≤ len.toNat := by
    intro n
    induction n using Nat.strong_induction_on with
    | h n ih =>
      intro a hok hlt ha
      have hmono := nvmServed_mono replies
      have hlive : NvmReadLive len replies n := .of_fits hok
        (fun i hi => (lt_of_le_of_lt (hmono hi.le) hlt).ne)
        fun i hi b hlt hb => ih i hi b (fun j hj => hok j (by omega)) hlt hb
      have hs := hlive.served addr mem stack
      -- the next turn makes the copy, which is inside the buffer
      have hrun : qedMcpNvmRead true addr len mem stack replies (n + 1) =
          (qedMcpNvmRead true addr len mem stack replies n).turn addr stack (.answer a) := by
        rw [← ha]
        exact run_succ (mt hs.finished_iff.1 hlt.ne)
      have hcopy : copy addr (qedMcpNvmRead true addr len mem stack replies n) a ∈
          (qedMcpNvmRead true addr len mem stack replies (n + 1)).copies := by
        rw [hrun, turn]
        split <;> exact mem_append_right _ (mem_singleton.2 rfl)
      have hdst := (hs.copy_of ha).dst
      rcases Nat.eq_zero_or_pos a.param.toNat with h0 | hpos
      · omega
      · have hsize : (copy addr (qedMcpNvmRead true addr len mem stack replies n) a).size =
            a.param.toNat := rfl
        have := h.inside (n + 1) _ hcopy (nvmServed replies n + a.param.toNat - 1)
          ⟨by omega, by omega⟩
        omega
  refine ⟨hfits, ?_, ?_⟩
  · by_contra hno
    push Not at hno
    have hok : ∀ n, (replies n).ReadOk := by
      intro n
      induction n using Nat.strong_induction_on with
      | h n ih => exact (hno n ih).2
    obtain ⟨n, hn⟩ := h.ends
    have hlive : NvmReadLive len replies n := .of_fits (fun i _ => hok i)
      (fun i _ => (hno i fun j _ => hok j).1) fun i _ a => hfits i a fun j _ => hok j
    exact (hno n fun j _ => hok j).1 ((hlive.served addr mem stack).finished_iff.1 hn)
  · intro haddr hlen n hok hn i hi
    -- the turn after which the buffer is filled
    classical
    have hex : ∃ m, nvmServed replies m = len.toNat := ⟨n, hn⟩
    have hm := Nat.find_spec hex
    have hle : Nat.find hex ≤ n := Nat.find_min' hex hn
    have hlive : NvmReadLive len replies (Nat.find hex) :=
      .of_fits (fun j hj => hok j (by omega)) (fun j hj => Nat.find_min hex hj)
        fun j hj a => hfits j a fun j' hj' => hok j' (by omega)
    have hs := hlive.served addr mem stack
    by_cases him : i < Nat.find hex
    · refine hs.fit_of_filled hm hlen (fun k hk => ?_) him
      rw [h.filled haddr hlen _ (hs.finished_iff.2 hm) hs.rc k hk]
      exact Set.singleton_nonempty _
    · refine .inl (eq_of_toNat_eq ?_)
      have h₁ := nvmServed_mono replies (not_lt.1 him)
      have h₂ := nvmServed_mono replies (succ_le_of_lt hi)
      rw [nvmServed_succ] at h₂
      change _ = 0
      omega

/-- **When an NVM read is safe**: if there is no PTT window, or if the replies are fine. -/
theorem nvmReadSafe_iff (ptt : Bool) :
    NvmReadSafe addr len (qedMcpNvmRead ptt addr len mem stack replies) ↔
      (ptt = true → NvmReadFair addr len replies) := by
  cases ptt with
  | true => exact ⟨fun h _ => h.fair, fun h => (h rfl).safe⟩
  | false =>
    have hrun : ∀ n, qedMcpNvmRead false addr len mem stack replies n = .start false len mem :=
      fun n => run_of_fin (.inl rfl) n.zero_le
    refine ⟨nofun, fun _ => ⟨⟨0, .inl rfl⟩, fun n => ?_, fun _ _ n _ hrc => ?_⟩⟩
    · rw [hrun]
      exact nofun
    · rw [hrun] at hrc
      exact absurd hrc nofun

end Run

end FastLinQ.Qed
