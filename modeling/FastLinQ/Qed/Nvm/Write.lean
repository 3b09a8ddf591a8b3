import FastLinQ.Qed.Nvm.Read

/-!
# What an NVM write delivers

`qed_mcp_nvm_write` delivers its buffer piece after piece. For `DRV_MSG_CODE_NVM_PUT_FILE_DATA` the
MFW says which piece comes next, and the loop only compares the begin of the piece with `len`.
`NvmWriteFair` says which replies are fine: a piece that is asked for and read does not go beyond
the end of the buffer, and one of the replies ends the loop (`NvmStops`).
-/

namespace FastLinQ.Qed

open NvmChunk NvmWrite BitVec Loop List

/-- The function ends and only reads `p_buf[0..len)`. -/
structure NvmWriteSafe (len : BitVec 32) (run : ℕ → NvmWrite) : Prop where
  ends : ∃ n, (run n).Finished len
  inside : ∀ n, ∀ r ∈ (run n).sources, ∀ k, r.Reads k → k < len.toNat

/-- The loop goes on with this reply. -/
def NvmReply.WriteOk : NvmReply → Prop
  | .answer a => nvmWriteOk a.resp = true
  | .error _ _ => False

/-- The piece that is due after `n` replies. -/
def nvmChunk (cmd : NvmCmd) (len : BitVec 32) (replies : ℕ → NvmReply) : ℕ → NvmChunk
  | 0 => .first len
  | n + 1 => (nvmChunk cmd len replies n).next cmd len (replies n).param

def NvmReply.Names (cmd : NvmCmd) (r : NvmReply) : Prop := r.param ≠ 0 ∧ cmd = .putFileData

/-- The piece that the MFW asks for. -/
def NvmReply.piece (r : NvmReply) : NvmChunk :=
  ⟨getMfwField r.param fwMbParamNvmPutFileReqOffset, getMfwField r.param fwMbParamNvmPutFileReqSize⟩

/-- The piece begins in the buffer, and the mailbox accepts it. -/
def NvmChunk.Taken (len : BitVec 32) (c : NvmChunk) : Prop :=
  c.bufIdx.toNat < len.toNat ∧ c.bufSize.toNat ≤ mcpDrvNvmBufLen

/-- Where the piece ends that comes after `m` replies: it is the first one, if that is a full one,
or the reply before asks for it. -/
def nvmPieceEnd (replies : ℕ → NvmReply) : ℕ → ℕ
  | 0 => mcpDrvNvmBufLen
  | m + 1 => (replies m).piece.bufIdx.toNat + (replies m).piece.bufSize.toNat

/-- Reply `n` ends the loop: it is not good; or it asks for a piece that does not begin in the
buffer or is too large; or it does not ask for one, the last piece that was asked for, or the first
one, came after `m` replies, and the pieces behind it have come to the end of the buffer. -/
def NvmStops (cmd : NvmCmd) (len : BitVec 32) (replies : ℕ → NvmReply) (n : ℕ) : Prop :=
  ¬ (replies n).WriteOk ∨ (replies n).Names cmd ∧ ¬ (replies n).piece.Taken len ∨
  ∃ m ≤ n, (m = 0 ∨ (replies (m - 1)).Names cmd) ∧
    (∀ i, m ≤ i → i ≤ n → ¬ (replies i).Names cmd) ∧
    len.toNat ≤ nvmPieceEnd replies m + mcpDrvNvmBufLen * (n - m)

structure NvmWriteFair (cmd : NvmCmd) (len : BitVec 32) (replies : ℕ → NvmReply) : Prop where
  /-- no piece that is asked for and read goes beyond the end of the buffer -/
  fits : ∀ n, (∀ i ≤ n, ¬ NvmStops cmd len replies i) → (replies n).Names cmd →
    (replies (n + 1)).sent = true →
    (replies n).piece.bufIdx.toNat + (replies n).piece.bufSize.toNat ≤ len.toNat
  /-- one of the replies ends the loop, if it is entered -/
  ends : len ≠ 0 → ∃ n, NvmStops cmd len replies n

section Run

variable {cmd : NvmCmd} {addr len : BitVec 32} {replies : ℕ → NvmReply} {s : NvmWrite} {n : ℕ}

/-! ## One turn -/

/-- What the loop looks like after `n` turns in which it has not ended. -/
structure NvmWrite.Delivered (cmd : NvmCmd) (len : BitVec 32) (replies : ℕ → NvmReply) (n : ℕ)
    (s : NvmWrite) : Prop where
  broke : s.broke = false
  chunk : s.chunk = nvmChunk cmd len replies n
  source : ∀ r ∈ s.sources, ∃ i < n, r.src = (nvmChunk cmd len replies i).bufIdx.toNat ∧
    r.size = (nvmChunk cmd len replies i).dataSrcSize

theorem NvmWrite.Delivered.finished_iff (h : s.Delivered cmd len replies n) :
    s.Finished len ↔ ¬ (nvmChunk cmd len replies n).bufIdx.toNat < len.toNat := by
  rw [Finished, h.broke, h.chunk]
  simp

theorem NvmReply.WriteOk.answer {r : NvmReply} (h : r.WriteOk) :
    ∃ a, r = .answer a ∧ nvmWriteOk a.resp = true := by
  cases r with
  | answer a => exact ⟨a, rfl, h⟩
  | error rc sent => exact absurd h id

/-- The mailbox takes a piece that is not too large. -/
theorem NvmChunk.wrCmd_of_le {c : NvmChunk} (h : c.dataSrcSize ≤ mcpDrvNvmBufLen) (r : NvmReply) :
    c.wrCmd r = r := by
  unfold wrCmd
  split
  · rfl
  · exact if_neg (by omega)

/-- A piece that is too large is refused before it is read. -/
theorem NvmChunk.wrCmd_of_lt {c : NvmChunk} (h : mcpDrvNvmBufLen < c.dataSrcSize) (r : NvmReply) :
    ∃ rc, c.wrCmd r = .error rc false := by
  unfold wrCmd
  split
  · exact ⟨_, rfl⟩
  · exact ⟨_, if_pos h⟩

theorem NvmWrite.Delivered.turn (h : s.Delivered cmd len replies n)
    (hsize : (nvmChunk cmd len replies n).dataSrcSize ≤ mcpDrvNvmBufLen)
    (hok : (replies n).WriteOk) :
    (s.turn cmd addr len (replies n)).Delivered cmd len replies (n + 1) := by
  obtain ⟨a, ha, hresp⟩ := hok.answer
  rw [NvmWrite.turn, h.chunk, wrCmd_of_le hsize, ha, NvmWrite.turnWith]
  simp only [hresp, if_true]
  refine ⟨h.broke, ?_, fun r hr => ?_⟩
  · change s.chunk.next cmd len a.param = (nvmChunk cmd len replies n).next cmd len _
    rw [h.chunk, ha]
    rfl
  · rcases mem_append.1 hr with hr | hr
    · obtain ⟨i, hi, hof⟩ := h.source r hr
      exact ⟨i, by omega, hof⟩
    · rw [mem_singleton.1 hr, h.chunk]
      exact ⟨n, n.lt_succ_self, rfl, rfl⟩

theorem NvmWrite.sources_turnWith (cmd : NvmCmd) (addr len : BitVec 32) (s : NvmWrite)
    (reply : NvmReply) :
    (s.turnWith cmd addr len reply).sources = s.sourcesAfter cmd addr reply := by
  cases reply with
  | error rc sent => rfl
  | answer a =>
    rw [turnWith]
    split <;> rfl

/-- What a turn reads: a piece that the mailbox accepts, if the command was written to it. -/
theorem NvmWrite.mem_sources_turn (s : NvmWrite) (r : NvmReply) {c : NvmSource} :
    c ∈ (s.turn cmd addr len r).sources ↔ c ∈ s.sources ∨
      c = s.chunk.source cmd addr ∧ r.sent = true ∧ s.chunk.dataSrcSize ≤ mcpDrvNvmBufLen := by
  rw [turn, sources_turnWith, sourcesAfter]
  rcases Nat.lt_or_ge mcpDrvNvmBufLen s.chunk.dataSrcSize with hlt | hle
  · obtain ⟨rc, hrc⟩ := wrCmd_of_lt hlt r
    simp [hrc, NvmReply.sent, hlt.not_ge]
  · rw [wrCmd_of_le hle]
    cases r.sent with
    | false => simp
    | true => simp [hle]

/-- A reply that is not good, or a piece that is too large, ends the loop. -/
theorem NvmWrite.broke_turn (s : NvmWrite) {r : NvmReply}
    (h : mcpDrvNvmBufLen < s.chunk.dataSrcSize ∨ ¬ r.WriteOk) :
    (s.turn cmd addr len r).broke = true := by
  rw [turn]
  rcases Nat.lt_or_ge mcpDrvNvmBufLen s.chunk.dataSrcSize with hlt | hle
  · obtain ⟨rc, hrc⟩ := wrCmd_of_lt hlt r
    rw [hrc]
    rfl
  · rw [wrCmd_of_le hle]
    cases r with
    | error rc sent => rfl
    | answer a =>
      have hresp : ¬ nvmWriteOk a.resp = true := h.resolve_left (by omega)
      simp only [turnWith, hresp]
      rfl

/-! ## The pieces -/

theorem toNat_minBufLen (m : BitVec 32) : (minBufLen m).toNat = min m.toNat mcpDrvNvmBufLen := by
  unfold minBufLen
  split
  · omega
  · change mcpDrvNvmBufLen = _
    omega

theorem NvmReply.piece_lt (r : NvmReply) :
    r.piece.bufIdx.toNat < 2 ^ 24 ∧ r.piece.bufSize.toNat < 2 ^ 8 := by
  refine ⟨(Nat.and_le_right (m := 0x00ffffff)).trans_lt (by decide), ?_⟩
  change ((r.param &&& 0xff000000) >>> 24).toNat < _
  rw [toNat_ushiftRight, Nat.shiftRight_eq_div_pow]
  omega

theorem NvmChunk.next_of_names (c : NvmChunk) {r : NvmReply} (h : r.Names cmd) :
    c.next cmd len r.param = r.piece := if_pos h

/-- Otherwise the next piece begins where the last one ends. -/
theorem NvmChunk.next_of_not_names {c : NvmChunk} {r : NvmReply} (len : BitVec 32)
    (h : ¬ r.Names cmd)
    (hlt : c.bufIdx.toNat + c.bufSize.toNat < 2 ^ 32) :
    (c.next cmd len r.param).bufIdx.toNat = c.bufIdx.toNat + c.bufSize.toNat ∧
      (c.bufIdx.toNat + c.bufSize.toNat ≤ len.toNat → (c.next cmd len r.param).bufSize.toNat =
        min (len.toNat - (c.bufIdx.toNat + c.bufSize.toNat)) mcpDrvNvmBufLen) ∧
      (c.next cmd len r.param).bufSize.toNat ≤ mcpDrvNvmBufLen := by
  have hsum : (c.bufIdx + c.bufSize).toNat = c.bufIdx.toNat + c.bufSize.toNat := by
    rw [toNat_add, Nat.mod_eq_of_lt hlt]
  rw [show c.next cmd len r.param = _ from if_neg h]
  dsimp only
  rw [toNat_minBufLen, hsum]
  refine ⟨rfl, fun hle => ?_, min_le_right _ _⟩
  rw [toNat_sub_of_le (by rw [le_def, hsum]; exact hle), hsum]

theorem dataSrcSize_nvmChunk (n : ℕ) :
    (nvmChunk cmd len replies n).dataSrcSize = (nvmChunk cmd len replies n).bufSize.toNat := by
  have hmin (m : BitVec 32) : (minBufLen m).toNat < 2 ^ 8 := by
    rw [toNat_minBufLen]
    exact (min_le_right _ _).trans_lt (by decide)
  have hlt : (nvmChunk cmd len replies n).bufSize.toNat < 2 ^ 8 := by
    cases n with
    | zero => exact hmin len
    | succ n =>
      by_cases hnames : (replies n).Names cmd
      · rw [nvmChunk, next_of_names _ hnames]
        exact (replies n).piece_lt.2
      · rw [nvmChunk, show NvmChunk.next cmd len _ _ = _ from if_neg hnames]
        exact hmin _
  rw [dataSrcSize, toNat_setWidth, Nat.mod_eq_of_lt hlt]

/-- The piece `c` that is due after `n` replies, none of which ends the loop. -/
structure NvmDue (cmd : NvmCmd) (len : BitVec 32) (replies : ℕ → NvmReply) (n : ℕ)
    (c : NvmChunk) : Prop where
  taken : c.Taken len
  lt : c.bufIdx.toNat + c.bufSize.toNat < 2 ^ 32
  last : ∃ m ≤ n, (m = 0 ∨ (replies (m - 1)).Names cmd) ∧
    (∀ i, m ≤ i → i < n → ¬ (replies i).Names cmd) ∧
    min (c.bufIdx.toNat + c.bufSize.toNat) len.toNat =
      min (nvmPieceEnd replies m + mcpDrvNvmBufLen * (n - m)) len.toNat

theorem NvmDue.start (hlen : len ≠ 0) : NvmDue cmd len replies 0 (.first len) := by
  have hsize : (first len).bufSize.toNat = min len.toNat mcpDrvNvmBufLen := toNat_minBufLen len
  have hpos : 0 < len.toNat := Nat.pos_of_ne_zero fun h => hlen (eq_of_toNat_eq h)
  have hidx : (first len).bufIdx.toNat = 0 := rfl
  refine ⟨⟨by omega, by omega⟩, by omega, 0, le_rfl, .inl rfl, fun i _ hi =>
    absurd hi i.not_lt_zero,
    ?_⟩
  rw [nvmPieceEnd]
  omega

section

variable {c : NvmChunk} (h : NvmDue cmd len replies n c)

include h

theorem NvmDue.stops_iff (hok : (replies n).WriteOk) :
    NvmStops cmd len replies n ↔ ¬ (c.next cmd len (replies n).param).Taken len := by
  by_cases hnames : (replies n).Names cmd
  · rw [next_of_names c hnames]
    constructor
    · rintro (hbad | ⟨-, htaken⟩ | ⟨m, hm, -, hnone, -⟩)
      · exact absurd hok hbad
      · exact htaken
      · exact absurd hnames (hnone n hm le_rfl)
    · exact fun htaken => .inr (.inl ⟨hnames, htaken⟩)
  · obtain ⟨hidx, -, hsize⟩ := next_of_not_names len hnames h.lt
    obtain ⟨m, hm, hlast, hnone, hend⟩ := h.last
    rw [Taken, hidx]
    constructor
    · rintro (hbad | ⟨hnamed, -⟩ | ⟨m', hm', hlast', hnone', hle⟩)
      · exact absurd hok hbad
      · exact absurd hnamed hnames
      · -- a piece is asked for at neither of the two places behind the other one
        have hmm : m' = m := by
          rcases Nat.lt_trichotomy m' m with hlt | heq | hlt
          · exact absurd (hlast.resolve_left (by omega)) (hnone' _ (by omega) (by omega))
          · exact heq
          · exact absurd (hlast'.resolve_left (by omega)) (hnone _ (by omega) (by omega))
        subst hmm
        omega
    · intro hnot
      refine .inr (.inr ⟨m, hm, hlast, fun i hmi hi => ?_, by omega⟩)
      obtain hi | rfl := hi.lt_or_eq
      · exact hnone i hmi hi
      · exact hnames

theorem NvmDue.next (hstop : ¬ NvmStops cmd len replies n) :
    NvmDue cmd len replies (n + 1) (c.next cmd len (replies n).param) := by
  have hok : (replies n).WriteOk := not_not.1 fun hbad => hstop (.inl hbad)
  have htaken := not_not.1 (mt (h.stops_iff hok).2 hstop)
  by_cases hnames : (replies n).Names cmd
  · rw [next_of_names c hnames] at htaken ⊢
    have hlt := (replies n).piece_lt
    refine ⟨htaken, by omega, n + 1, le_rfl, .inr hnames, fun i _ _ => by omega, ?_⟩
    rw [nvmPieceEnd, Nat.sub_self, Nat.mul_zero, Nat.add_zero]
  · obtain ⟨hidx, hsize, -⟩ := next_of_not_names len hnames h.lt
    obtain ⟨m, hm, hlast, hnone, hend⟩ := h.last
    have hle : c.bufIdx.toNat + c.bufSize.toNat < len.toNat := hidx ▸ htaken.1
    have hlen := len.isLt
    specialize hsize hle.le
    refine ⟨htaken, by omega, m, by omega, hlast, fun i hmi hi => ?_, ?_⟩
    · obtain hi | rfl := (Nat.lt_succ_iff.1 hi).lt_or_eq
      · exact hnone i hmi hi
      · exact hnames
    · rw [Nat.succ_sub hm, Nat.mul_succ, hidx, hsize]
      omega

end

theorem nvmDue (hlen : len ≠ 0) (h : ∀ i < n, ¬ NvmStops cmd len replies i) :
    NvmDue cmd len replies n (nvmChunk cmd len replies n) := by
  induction n with
  | zero => exact .start hlen
  | succ n ih => exact (ih fun i hi => h i (by omega)).next (h n n.lt_succ_self)

/-! ## The whole loop -/

/-- The commands for which the loop is entered. -/
def NvmCmd.Valid : NvmCmd → Prop
  | .invalid _ => False
  | _ => True

theorem NvmWrite.Delivered.start (hcmd : cmd.Valid) :
    (start true cmd len).Delivered cmd len replies 0 := by
  cases cmd with
  | invalid c => exact absurd hcmd id
  | _ => exact ⟨rfl, rfl, nofun⟩

theorem nvmWrite_delivered (addr : BitVec 32) (hcmd : cmd.Valid) (hlen : len ≠ 0)
    (hn : ∀ i < n, ¬ NvmStops cmd len replies i) :
    (qedMcpNvmWrite true cmd addr len replies n).Delivered cmd len replies n := by
  refine track (P := fun i s => Delivered cmd len replies i s) (.start hcmd) ?_
  intro i hi s hs
  have htaken := (nvmDue hlen fun j hj => hn j (hj.trans hi)).taken
  exact ⟨fun hfin => hs.finished_iff.1 hfin htaken.1,
    hs.turn ((dataSrcSize_nvmChunk i).trans_le htaken.2)
      (not_not.1 fun hbad => hn i hi (.inl hbad))⟩

/-- The loop has ended, or will do so with a piece that is too large, and has read nothing behind
the buffer. -/
structure NvmWrite.Over (len : BitVec 32) (s : NvmWrite) : Prop where
  ends : s.Finished len ∨ mcpDrvNvmBufLen < s.chunk.dataSrcSize
  inside : ∀ r ∈ s.sources, ∀ k, r.Reads k → k < len.toNat

theorem NvmWrite.Over.turn (h : s.Over len) (hfin : ¬ s.Finished len) (r : NvmReply) :
    (s.turn cmd addr len r).Finished len ∧ (s.turn cmd addr len r).Over len := by
  have hlarge := h.ends.resolve_left hfin
  have hbroke : (s.turn cmd addr len r).broke = true := s.broke_turn (.inl hlarge)
  refine ⟨.inl hbroke, .inl (.inl hbroke), fun c hc => h.inside c ?_⟩
  exact ((s.mem_sources_turn r).1 hc).resolve_right fun hnew => hnew.2.2.not_gt hlarge

section

variable (h : NvmWriteFair cmd len replies) (hlen : len ≠ 0)

include h hlen

/-- The pieces that the MFW does not ask for fit anyway. -/
theorem NvmWriteFair.fits_of_due (hn : ∀ i < n, ¬ NvmStops cmd len replies i)
    (hsent : (replies n).sent = true) :
    (nvmChunk cmd len replies n).bufIdx.toNat + (nvmChunk cmd len replies n).dataSrcSize ≤
      len.toNat := by
  rw [dataSrcSize_nvmChunk]
  cases n with
  | zero =>
    change 0 + (minBufLen len).toNat ≤ _
    rw [toNat_minBufLen]
    omega
  | succ n =>
    by_cases hnames : (replies n).Names cmd
    · rw [nvmChunk, next_of_names _ hnames]
      exact h.fits n (fun i hi => hn i (Nat.lt_succ_of_le hi)) hnames hsent
    · have hprev := nvmDue hlen fun i hi => hn i (Nat.lt_succ_of_lt hi)
      have hlt := (nvmDue hlen hn).taken.1
      obtain ⟨hidx, hnext, -⟩ := next_of_not_names len hnames hprev.lt
      rw [nvmChunk] at hlt ⊢
      specialize hnext (hidx ▸ hlt.le)
      omega

theorem NvmWriteFair.inside (hs : s.Delivered cmd len replies n)
    (hn : ∀ i < n, ¬ NvmStops cmd len replies i) :
    ∀ r ∈ s.sources, ∀ k, r.Reads k → k < len.toNat := by
  intro r hr k hk
  obtain ⟨i, hi, hsrc, hsize⟩ := hs.source r hr
  have hok : (replies i).WriteOk := not_not.1 fun hbad => hn i hi (.inl hbad)
  obtain ⟨a, ha, -⟩ := hok.answer
  have hle := h.fits_of_due hlen (fun j hj => hn j (hj.trans hi)) (by rw [ha]; rfl)
  rw [← hsrc, ← hsize] at hle
  exact hk.2.trans_le hle

/-- **A turn** reads nothing behind the buffer, and reply `n` ends the loop or not. -/
theorem NvmWriteFair.turn (hs : s.Delivered cmd len replies n)
    (hn : ∀ i < n, ¬ NvmStops cmd len replies i) :
    let s' := s.turn cmd addr len (replies n)
    s'.Delivered cmd len replies (n + 1) ∧ (∀ i < n + 1, ¬ NvmStops cmd len replies i) ∨
      s'.Over len := by
  intro s'
  have hdue := nvmDue hlen hn
  have hsize : (nvmChunk cmd len replies n).dataSrcSize ≤ mcpDrvNvmBufLen :=
    (dataSrcSize_nvmChunk n).trans_le hdue.taken.2
  have hinside : ∀ r ∈ s'.sources, ∀ k, r.Reads k → k < len.toNat := by
    intro r hr k hk
    rcases (s.mem_sources_turn (replies n)).1 hr with hr | ⟨rfl, hsent, -⟩
    · exact h.inside hlen hs hn r hr k hk
    · rw [hs.chunk] at hk
      exact hk.2.trans_le (h.fits_of_due hlen hn hsent)
  by_cases hok : (replies n).WriteOk
  · have hs' : s'.Delivered cmd len replies (n + 1) := hs.turn hsize hok
    by_cases hstop : NvmStops cmd len replies n
    · refine .inr ⟨?_, hinside⟩
      have hnot : ¬ (nvmChunk cmd len replies (n + 1)).Taken len := (hdue.stops_iff hok).1 hstop
      rw [hs'.finished_iff, hs'.chunk, dataSrcSize_nvmChunk]
      exact (not_and_or.1 hnot).imp_right Nat.lt_of_not_le
    · refine .inl ⟨hs', fun i hi => ?_⟩
      obtain hi | rfl := (Nat.lt_succ_iff.1 hi).lt_or_eq
      · exact hn i hi
      · exact hstop
  · exact .inr ⟨.inl (.inl (s.broke_turn (.inr hok))), hinside⟩

/-- **The loop over any number of turns**, with replies that fit. -/
theorem NvmWriteFair.run (hcmd : cmd.Valid) (addr : BitVec 32) (n : ℕ) :
    let s := qedMcpNvmWrite true cmd addr len replies n
    s.Delivered cmd len replies n ∧ (∀ i < n, ¬ NvmStops cmd len replies i) ∨ s.Over len := by
  refine track_or
    (P := fun n s => Delivered cmd len replies n s ∧ ∀ i < n, ¬ NvmStops cmd len replies i)
    (D := Over len) ⟨.start hcmd, nofun⟩ (fun i _ hover hfin => (hover.turn hfin (replies i)).2)
    (fun i s hs _ => h.turn hlen hs.1 hs.2) (fun i s hs hfin => ?_) n
  exact absurd (nvmDue hlen hs.2).taken.1 (hs.1.finished_iff.1 hfin)

theorem NvmWriteFair.safe (hcmd : cmd.Valid) :
    NvmWriteSafe len (qedMcpNvmWrite true cmd addr len replies) := by
  refine ⟨?_, fun n => ?_⟩
  · obtain ⟨n, hn⟩ := h.ends hlen
    have hover := (h.run hlen hcmd addr (n + 1)).resolve_left fun hs => hs.2 n n.lt_succ_self hn
    by_cases hfin : (qedMcpNvmWrite true cmd addr len replies (n + 1)).Finished len
    · exact ⟨n + 1, hfin⟩
    · refine ⟨n + 2, ?_⟩
      rw [qedMcpNvmWrite, run_succ hfin]
      exact (hover.turn hfin _).1
  · rcases h.run hlen hcmd addr n with hs | hover
    · exact h.inside hlen hs.1 hs.2
    · exact hover.inside

end

theorem NvmWriteSafe.fair (h : NvmWriteSafe len (qedMcpNvmWrite true cmd addr len replies))
    (hcmd : cmd.Valid) : NvmWriteFair cmd len replies := by
  refine ⟨fun n hn hnames hsent => ?_, fun hlen => ?_⟩
  · have htaken := not_not.1 fun hnot => hn n le_rfl (.inr (.inl ⟨hnames, hnot⟩))
    have hlen : len ≠ 0 := by
      rintro rfl
      exact Nat.not_lt_zero _ htaken.1
    have hs := nvmWrite_delivered addr hcmd hlen fun i (hi : i < n + 1) => hn i (by omega)
    have hpiece : nvmChunk cmd len replies (n + 1) = (replies n).piece := next_of_names _ hnames
    have hsize : (nvmChunk cmd len replies (n + 1)).dataSrcSize = _ := dataSrcSize_nvmChunk _
    rw [← hs.chunk] at hpiece hsize
    rw [← hpiece] at htaken ⊢
    have hin := h.inside (n + 2)
      (source cmd addr (qedMcpNvmWrite true cmd addr len replies (n + 1)).chunk) (by
      rw [qedMcpNvmWrite, run_succ fun hfin => (hs.finished_iff.1 hfin) (hs.chunk ▸ htaken.1)]
      exact (mem_sources_turn _ _).2 (.inr ⟨rfl, hsent, hsize.trans_le htaken.2⟩))
    simp only [NvmSource.Reads, source] at hin
    by_contra hgt
    have := hin len.toNat ⟨htaken.1.le, by omega⟩
    omega
  · by_contra hno
    push Not at hno
    obtain ⟨n, hn⟩ := h.ends
    exact (nvmWrite_delivered addr hcmd hlen fun i _ => hno i).finished_iff.1 hn
      (nvmDue hlen fun i _ => hno i).taken.1

/-- Pieces that follow one another come to the end. -/
theorem NvmWriteFair.of_ne (hcmd : cmd ≠ .putFileData) (len : BitVec 32) (replies : ℕ → NvmReply) :
    NvmWriteFair cmd len replies := by
  refine ⟨fun n _ hnames => absurd hnames.2 hcmd, fun _ => ⟨len.toNat, .inr (.inr ⟨0, Nat.zero_le _,
    .inl rfl, fun i _ _ hnames => hcmd hnames.2, ?_⟩)⟩⟩
  rw [nvmPieceEnd]
  unfold mcpDrvNvmBufLen
  omega

/-- **When an NVM write is safe**: always, but for `QED_PUT_FILE_DATA`, where the replies must be
fine. -/
theorem nvmWriteSafe_iff (ptt : Bool) (cmd : NvmCmd) :
    NvmWriteSafe len (qedMcpNvmWrite ptt cmd addr len replies) ↔
      (ptt = true → cmd = .putFileData → NvmWriteFair .putFileData len replies) := by
  have hstop (hfin : (start ptt cmd len).Finished len) :
      NvmWriteSafe len (qedMcpNvmWrite ptt cmd addr len replies) := by
    have hrun : ∀ n, qedMcpNvmWrite ptt cmd addr len replies n = .start ptt cmd len :=
      fun n => run_of_fin hfin n.zero_le
    have hsources : (start ptt cmd len).sources = [] := by
      unfold start
      split <;> rfl
    refine ⟨⟨0, hfin⟩, fun n => ?_⟩
    rw [hrun, hsources]
    exact nofun
  have hsafe (hcmd : cmd.Valid) (hfair : NvmWriteFair cmd len replies) (hptt : ptt = true) :
      NvmWriteSafe len (qedMcpNvmWrite ptt cmd addr len replies) := by
    by_cases hlen : len = 0
    · refine hstop (.inr ?_)
      rw [hlen]
      exact Nat.not_lt_zero _
    · rw [hptt]
      exact hfair.safe hlen hcmd
  by_cases hcmd : cmd = .putFileData
  · subst hcmd
    cases ptt with
    | true => exact ⟨fun h _ _ => h.fair trivial, fun h => hsafe trivial (h rfl rfl) rfl⟩
    | false => exact ⟨nofun, fun _ => hstop (.inl rfl)⟩
  · refine ⟨fun _ _ h => absurd h hcmd, fun _ => ?_⟩
    cases ptt with
    | false => exact hstop (.inl rfl)
    | true =>
      cases cmd with
      | invalid c => exact hstop (.inl rfl)
      | putFileData => exact absurd rfl hcmd
      | _ => exact hsafe trivial (.of_ne hcmd len replies) rfl

end Run

/-! ## Both loops -/

/-- **NVM access**: which replies of the MFW are fine for the two loops, and only these. -/
theorem nvmAccess_safe_iff (ptt : Bool) (cmd : NvmCmd) (addr len : BitVec 32)
    (mem stack : ℕ → BitVec 8) (replies : ℕ → NvmReply) :
    (NvmReadSafe addr len (qedMcpNvmRead ptt addr len mem stack replies) ↔
      (ptt = true → NvmReadFair addr len replies)) ∧
    (NvmWriteSafe len (qedMcpNvmWrite ptt cmd addr len replies) ↔
      (ptt = true → cmd = .putFileData → NvmWriteFair .putFileData len replies)) :=
  ⟨nvmReadSafe_iff ptt, nvmWriteSafe_iff ptt cmd⟩

/-- The same good answer for ever. -/
def steadyReplies (param : BitVec 32) (_ : ℕ) : NvmReply :=
  .answer ⟨fwMsgCodeNvmOk, param, fun _ => 0⟩

/-- With empty answers a read never ends; with an answer of 33 bytes it writes behind a buffer
of one byte; the second command of a read that begins at the last address is for the address 0. If
the MFW asks for the first piece again and again, a write goes on for ever; if it asks for 32 bytes
at the last byte of the buffer, the write reads behind the buffer. -/
theorem not_nvmAccess_safe :
    (∀ n, ¬ (qedMcpNvmRead true 0 1 0 0 (steadyReplies 0) n).Finished) ∧
    (∃ c ∈ (qedMcpNvmRead true 0 1 0 0 (steadyReplies 33) 1).copies, c.Writes 1) ∧
    (∃ c ∈ (qedMcpNvmRead true 0xffffff 2 0 0 (steadyReplies 1) 2).copies,
      c.Writes 1 ∧ getMfwField c.param drvMbParamNvmOffset = 0) ∧
    (∀ n, ¬ (qedMcpNvmWrite true .putFileData 0 32 (steadyReplies 0x20000000) n).Finished 32) ∧
    ∃ r ∈ (qedMcpNvmWrite true .putFileData 0 33 (steadyReplies 0x20000020) 2).sources,
      r.Reads 33 := by
  refine ⟨fun n => ?_, ⟨_, mem_singleton.2 rfl, by decide⟩, ⟨_, .tail _ (.head _), by decide⟩,
    fun n => ?_, ⟨_, .tail _ (.head _), by decide, by decide⟩⟩
  · have hzero : ∀ n, nvmServed (steadyReplies 0) n = 0 := fun n =>
      Finset.sum_eq_zero fun _ _ => rfl
    have hlive : NvmReadLive 1 (steadyReplies 0) n := fun i _ =>
      ⟨rfl, by rw [hzero]; decide, by rw [hzero]; decide⟩
    rw [(hlive.served 0 0 0).finished_iff, hzero]
    decide
  · have hnames : (steadyReplies 0x20000000 0).Names .putFileData := ⟨by decide, rfl⟩
    have htaken : (steadyReplies 0x20000000 0).piece.Taken 32 := ⟨by decide, by decide⟩
    have hgo (i : ℕ) : ¬ NvmStops .putFileData 32 (steadyReplies 0x20000000) i := by
      rintro (hbad | ⟨-, hnot⟩ | ⟨m, hm, -, hnone, -⟩)
      · exact hbad rfl
      · exact hnot htaken
      · exact hnone i hm le_rfl hnames
    have hcmd : NvmCmd.putFileData.Valid := trivial
    rw [(nvmWrite_delivered 0 hcmd (by decide) fun i _ => hgo i).finished_iff]
    exact not_not.2 (nvmDue (by decide) fun i _ => hgo i).taken.1

end FastLinQ.Qed
