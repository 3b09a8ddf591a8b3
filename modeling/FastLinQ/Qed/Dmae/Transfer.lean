import FastLinQ.Foundations.Run
import FastLinQ.Qed.Dmae.Basic

/-!
# A transfer that reports success has happened

`DmaeRecord.Moved` says what a transfer that returned 0 is supposed to mean: all of its commands
were posted and carried out, they cover each dword once, and the destination holds what the source
held when the transfer began.

The completion word is one for all commands, and only a successful wait clears it. A command that is
carried out after the driver has given up on it therefore completes the next command instead. Where
each transfer begins with a clear completion word, and no command of an earlier one is carried out
while it runs, every transfer is `Moved`.
-/

namespace FastLinQ.Qed

open Run Function List Nat DmaeSys DmaeMem DmaeCall DmaeRecord DmaeAddressType

/-! ## Copies -/

variable {m : DmaeMem}

theorem DmaeMem.copy_of_ne {dst src sp : DmaeSpace} {d a n : ℕ} (h : sp ≠ dst) :
    m.copy dst d src a n sp = m sp := update_of_ne h _ _

theorem DmaeMem.copy_inside {dst src : DmaeSpace} {d a n j : ℕ} (h : j < n) :
    m.copy dst d src a n dst (d + j) = m src (a + j) := by
  unfold copy
  rw [update_self, if_pos ⟨by omega, by omega⟩, Nat.add_sub_cancel_left]

theorem DmaeMem.copy_outside {dst src sp : DmaeSpace} {d a n x : ℕ}
    (h : sp = dst → x < d ∨ d + n ≤ x) : m.copy dst d src a n sp x = m sp x := by
  by_cases hsp : sp = dst
  · have hx := h hsp
    subst hsp
    unfold copy
    rw [update_self, if_neg (by omega)]
  · rw [copy_of_ne hsp]

/-! ## The commands of a transfer -/

namespace DmaeCall

variable (c : DmaeCall) (bufPhys : ℕ)

def srcByte : ℕ := c.srcType.byteAddr c.srcAddr

def dstByte : ℕ := c.dstType.byteAddr c.dstAddr

/-- The turns before turn `i` that have something to move. -/
def turns (i : ℕ) : List ℕ := (range i).filter fun i => c.lengthCur i ≠ 0

/-- The commands of the turns before turn `i`. -/
def cmdsBefore (i : ℕ) : List DmaeCmd := (c.turns i).map fun i => c.cmd bufPhys i

def cmds : List DmaeCmd := c.cmdsBefore bufPhys (c.cntSplit + 1)

/-- The buffers of the transfer end within the address space, and do not overlap if they are in the
same memory. -/
@[mk_iff]
structure Fits : Prop where
  src : c.srcAddr + 4 * c.sizeInDwords ≤ 2 ^ 64
  dst : c.dstAddr + 4 * c.sizeInDwords ≤ 2 ^ 64
  apart : c.srcType.space = c.dstType.space →
    c.srcByte + 4 * c.sizeInDwords ≤ c.dstByte ∨ c.dstByte + 4 * c.sizeInDwords ≤ c.srcByte

instance decidableFits : Decidable c.Fits := decidable_of_iff _ (fits_iff c).symm

/-- The byte belongs to the source or the destination. -/
def Uses (sp : DmaeSpace) (x : ℕ) : Prop :=
  (sp = c.srcType.space ∧ c.srcByte ≤ x ∧ x < c.srcByte + 4 * c.sizeInDwords) ∨
    (sp = c.dstType.space ∧ c.dstByte ≤ x ∧ x < c.dstByte + 4 * c.sizeInDwords)
  deriving Decidable

end DmaeCall

/-- What a return value of 0 is supposed to mean: the commands of the transfer, and no others, were
posted and carried out, each once; they cover each dword once; and the destination holds, dword by
dword, what the source held when the transfer began. -/
structure DmaeRecord.Moved (bufPhys : ℕ) (r : DmaeRecord) : Prop where
  posted : r.posted = r.call.cmds bufPhys
  completed : r.completed = r.call.cmds bufPhys
  once : ((r.call.turns (r.call.cntSplit + 1)).flatMap fun i =>
    range' (DMAE_MAX_RW_SIZE * i) (r.call.lengthCur i)) = range r.call.sizeInDwords
  data : ∀ j < 4 * r.call.sizeInDwords, r.after r.call.dstType.space (r.call.dstByte + j) =
      r.before r.call.srcType.space (r.call.srcByte + j)

/-- Every transfer of fewer than `2 ^ 29` dwords, without `RW_REPL_SRC`, that returned 0 outside of
a recovery has moved its data. -/
def DmaeSys.Honest (s : DmaeSys) : Prop :=
  ∀ r ∈ s.log, r.rc = .success → r.call.recovInProg = false → r.call.rwReplSrc = false →
    r.call.sizeInDwords < 2 ^ 29 → r.Moved s.bufPhys

def DmaePc.call : DmaePc → Option DmaeCall
  | idle => none
  | loop c _ | wait c _ _ => some c

/-- The commands in the engine that are left over from earlier transfers; they come first. -/
def DmaeSys.stale (s : DmaeSys) : ℕ := s.outstanding.length + s.completed.length - s.posted.length

/-- The transfers that `Honest` is about fit. -/
def DmaeCall.Apt (c : DmaeCall) : Prop :=
  c.rwReplSrc = false → c.sizeInDwords < 2 ^ 29 → c.Fits
  deriving Decidable

/-- A transfer begins with no completion in the completion word; and while it runs, no command of an
earlier one is carried out, and nothing else writes its buffers or the intermediate buffer. -/
def DmaeSys.Sound (s : DmaeSys) : DmaeEvent → Prop
  | .turn => True
  | .complete k => s.pc ≠ .idle → s.stale ≤ k
  | .store sp addr _ => ∀ c ∈ s.pc.call, sp ≠ .intermediate ∧ ¬c.Uses sp addr
  | e => ∀ c ∈ e.call, s.pc = .idle → c.bMemReady → c.recovInProg = false →
    s.completionWord ≠ DMAE_COMPLETION_VAL ∧ c.Apt

instance DmaeSys.decidableSound (s : DmaeSys) (e : DmaeEvent) : Decidable (s.Sound e) := by
  unfold Sound
  cases e <;> infer_instance

namespace DmaeCall

variable {c : DmaeCall} {bufPhys i : ℕ}

theorem byteAddr_split {t : DmaeAddressType} {addr off : ℕ} (haddr : addr + 4 * off < 2 ^ 64)
    (hoff : off < 2 ^ 29) : t.byteAddr (t.split addr off) = t.byteAddr addr + 4 * off := by
  cases t <;> simp only [split, byteAddr] <;> omega

/-- The engine gets the intermediate buffer for a virtual address. -/
theorem place_cases (bufPhys : ℕ) {t : DmaeAddressType} {addr b : ℕ} (hb : t.byteAddr addr = b) :
    (t = .hostVirt ∧ t.place bufPhys addr = ⟨bufPhys, .intermediate, 0⟩) ∨
      (t ≠ .hostVirt ∧ (t.place bufPhys addr).space = t.space ∧
        (t.place bufPhys addr).addr = b) := by
  subst hb
  cases t with
  | hostVirt => exact .inl ⟨rfl, rfl⟩
  | hostPhys => exact .inr ⟨nofun, rfl, rfl⟩
  | grc => exact .inr ⟨nofun, rfl, rfl⟩

theorem space_ne_intermediate (t : DmaeAddressType) : t.space ≠ .intermediate := by
  cases t <;> nofun

/-- A transfer whose counter does not run around. -/
structure Regular (c : DmaeCall) : Prop where
  size : c.sizeInDwords < (2 ^ 16 - 1) * DMAE_MAX_RW_SIZE
  noRepl : c.rwReplSrc = false
  fits : c.Fits

namespace Regular

section

variable (h : c.Regular)

include h

theorem cntSplit_eq : c.cntSplit = c.sizeInDwords / DMAE_MAX_RW_SIZE := by
  have hsize := h.size
  unfold cntSplit DMAE_MAX_RW_SIZE at *
  omega

theorem cntSplit_lt : c.cntSplit + 1 < 2 ^ 16 := by
  have hsize := h.size
  rw [h.cntSplit_eq]
  unfold DMAE_MAX_RW_SIZE at *
  omega

/-- What is moved before turn `i` and in turn `i`. -/
theorem chunk_eq (hi : i ≤ c.cntSplit) :
    DMAE_MAX_RW_SIZE * i + c.lengthCur i = min (DMAE_MAX_RW_SIZE * (i + 1)) c.sizeInDwords := by
  rw [h.cntSplit_eq] at hi
  unfold lengthCur
  rw [h.cntSplit_eq]
  unfold DMAE_MAX_RW_SIZE at *
  split <;> omega

theorem min_start (hi : i ≤ c.cntSplit) :
    min (DMAE_MAX_RW_SIZE * i) c.sizeInDwords = DMAE_MAX_RW_SIZE * i := by
  rw [h.cntSplit_eq] at hi
  unfold DMAE_MAX_RW_SIZE at *
  omega

theorem min_end : min (DMAE_MAX_RW_SIZE * (c.cntSplit + 1)) c.sizeInDwords = c.sizeInDwords := by
  rw [h.cntSplit_eq]
  unfold DMAE_MAX_RW_SIZE at *
  omega

theorem byteAddr_src (hi : i ≤ c.cntSplit) (hlen : c.lengthCur i ≠ 0) :
    c.srcType.byteAddr (c.srcAddrSplit i) = c.srcByte + 4 * (DMAE_MAX_RW_SIZE * i) := by
  have hchunk := h.chunk_eq hi
  have hfits := h.fits.src
  have hsize := h.size
  rw [srcAddrSplit, h.noRepl]
  exact byteAddr_split (by omega) (by unfold DMAE_MAX_RW_SIZE at *; omega)

theorem byteAddr_dst (hi : i ≤ c.cntSplit) (hlen : c.lengthCur i ≠ 0) :
    c.dstType.byteAddr (c.dstAddrSplit i) = c.dstByte + 4 * (DMAE_MAX_RW_SIZE * i) := by
  have hchunk := h.chunk_eq hi
  have hfits := h.fits.dst
  have hsize := h.size
  exact byteAddr_split (by omega) (by unfold DMAE_MAX_RW_SIZE at *; omega)

/-- The turns before turn `i` cover the dwords before its chunk, each once. -/
theorem turns_cover (hi : i ≤ c.cntSplit + 1) :
    ((c.turns i).flatMap fun i => range' (DMAE_MAX_RW_SIZE * i) (c.lengthCur i)) =
      range (min (DMAE_MAX_RW_SIZE * i) c.sizeInDwords) := by
  induction i with
  | zero => simp [turns]
  | succ i ih =>
    have hchunk := h.chunk_eq (i := i) (by omega)
    rw [h.min_start (by omega)] at ih
    have hone : (([i].filter fun i => c.lengthCur i ≠ 0).flatMap fun i =>
        range' (DMAE_MAX_RW_SIZE * i) (c.lengthCur i)) =
        range' (DMAE_MAX_RW_SIZE * i) (c.lengthCur i) := by
      by_cases hlen : c.lengthCur i = 0 <;> simp [hlen]
    rw [turns, range_succ, filter_append, flatMap_append, hone]
    rw [turns] at ih
    rw [ih (by omega), ← hchunk, range_eq_range', range_eq_range',
      range'_append_1 .. |>.symm, Nat.zero_add]

end

end Regular

theorem cmdsBefore_succ (hlen : c.lengthCur i ≠ 0) :
    c.cmdsBefore bufPhys (i + 1) = c.cmdsBefore bufPhys i ++ [c.cmd bufPhys i] := by
  simp [cmdsBefore, turns, range_succ, hlen]

theorem cmdsBefore_succ_of_zero (hlen : c.lengthCur i = 0) :
    c.cmdsBefore bufPhys (i + 1) = c.cmdsBefore bufPhys i := by
  simp [cmdsBefore, turns, range_succ, hlen]

end DmaeCall

namespace DmaeSys

variable {s : DmaeSys} {c : DmaeCall} {i : ℕ}

/-! ## What holds while a transfer runs -/

/-- The source is as it was when the transfer began, and the first `n` dwords of it are in the
destination. -/
structure Kept (s : DmaeSys) (c : DmaeCall) (n : ℕ) : Prop where
  source : ∀ j < 4 * c.sizeInDwords,
    s.mem c.srcType.space (c.srcByte + j) = s.before c.srcType.space (c.srcByte + j)
  dest : ∀ j < 4 * n,
    s.mem c.dstType.space (c.dstByte + j) = s.before c.srcType.space (c.srcByte + j)

/-- The place holds the chunk of turn `i`. -/
def Filled (s : DmaeSys) (c : DmaeCall) (i : ℕ) (p : DmaePlace) : Prop :=
  ∀ j < 4 * c.lengthCur i, s.mem p.space (p.addr + j) =
    s.before c.srcType.space (c.srcByte + 4 * (DMAE_MAX_RW_SIZE * i) + j)

/-- All commands of the transfer are carried out, and no completion is in the completion word. -/
structure Quiet (s : DmaeSys) : Prop where
  all : s.posted.length = s.completed.length
  word : s.completionWord ≠ DMAE_COMPLETION_VAL

/-- At the head of the loop, the commands before turn `i` are posted and carried out. -/
structure AtLoop (s : DmaeSys) (c : DmaeCall) (i : ℕ) : Prop where
  le : i ≤ c.cntSplit + 1
  posted : s.posted = c.cmdsBefore s.bufPhys i
  completed : s.completed = c.cmdsBefore s.bufPhys i
  kept : s.Kept c (min (DMAE_MAX_RW_SIZE * i) c.sizeInDwords)

/-- In the wait of turn `i`, the command is posted; `done` says whether it is carried out. -/
structure AtWait (s : DmaeSys) (c : DmaeCall) (i : ℕ) (done : Bool) : Prop where
  posted : s.posted = c.cmdsBefore s.bufPhys (i + 1)
  completed : s.completed = c.cmdsBefore s.bufPhys (if done then i + 1 else i)
  kept : s.Kept c (DMAE_MAX_RW_SIZE * i)
  filled : s.Filled c i (if done then (c.cmd s.bufPhys i).dst else (c.cmd s.bufPhys i).src)

/-- The wait of turn `i`: the command was refused, is in the engine, or is carried out. -/
inductive Waiting (s : DmaeSys) (c : DmaeCall) (i : ℕ) : Prop
  | refused (hq : s.Quiet)
  | posted {stale : List DmaeCmd} (hout : s.outstanding = stale ++ [c.cmd s.bufPhys i])
      (hone : s.posted.length = s.completed.length + 1)
      (hword : s.completionWord ≠ DMAE_COMPLETION_VAL) (hdata : c.Regular → s.AtWait c i false)
  | done (hall : s.posted.length = s.completed.length) (hdata : c.Regular → s.AtWait c i true)

def Running (s : DmaeSys) : Prop :=
  match s.pc with
  | .idle => True
  | .loop c i => i < 2 ^ 16 ∧ c.Apt ∧ s.Quiet ∧ (c.Regular → s.AtLoop c i)
  | .wait c i _ => i ≤ c.cntSplit ∧ c.lengthCur i ≠ 0 ∧ c.Apt ∧ s.Waiting c i

structure Inv (s : DmaeSys) : Prop where
  honest : s.Honest
  running : s.Running

/-! ## One step -/

theorem honest_ret (h : s.Honest) {rc : DmaeRc}
    (hm : rc = .success → c.recovInProg = false → c.rwReplSrc = false → c.sizeInDwords < 2 ^ 29 →
      Moved s.bufPhys ⟨c, rc, s.posted, s.completed, s.before, s.mem⟩) :
    (s.ret c rc).Inv := by
  exact ⟨forall_mem_append.2 ⟨h, forall_mem_singleton.2 hm⟩, trivial⟩

/-- Changes outside of the buffers of the transfer do not matter. -/
theorem Kept.congr {s' : DmaeSys} {n : ℕ} (h : s.Kept c n) (hn : n ≤ c.sizeInDwords)
    (hbefore : s'.before = s.before) (hmem : ∀ sp x, c.Uses sp x → s'.mem sp x = s.mem sp x) :
    s'.Kept c n := by
  refine ⟨fun j hj => ?_, fun j hj => ?_⟩
  · rw [hmem _ _ (.inl ⟨rfl, by omega, by omega⟩), hbefore]
    exact h.source j hj
  · rw [hmem _ _ (.inr ⟨rfl, by omega, by omega⟩), hbefore]
    exact h.dest j hj

theorem Filled.congr {s' : DmaeSys} {p : DmaePlace} (h : s.Filled c i p)
    (hbefore : s'.before = s.before)
    (hmem : ∀ j < 4 * c.lengthCur i, s'.mem p.space (p.addr + j) = s.mem p.space (p.addr + j)) :
    s'.Filled c i p := by
  intro j hj
  rw [hmem j hj, hbefore]
  exact h j hj

variable {sp : DmaeSpace}

theorem uses_ne_intermediate {x : ℕ} (h : c.Uses sp x) : sp ≠ .intermediate := by
  rcases h with ⟨rfl, -⟩ | ⟨rfl, -⟩ <;> exact space_ne_intermediate _

theorem fillBuffer_of_ne (h : sp ≠ .intermediate) : s.fillBuffer c i sp = s.mem sp := by
  unfold fillBuffer
  split
  · exact copy_of_ne h
  · rfl

section Chunk

variable {bufPhys : ℕ} (hc : c.Regular) (hi : i ≤ c.cntSplit) (hlen : c.lengthCur i ≠ 0)

include hc hi hlen

theorem src_cases (bufPhys : ℕ) :
    (c.srcType = .hostVirt ∧ (c.cmd bufPhys i).src = ⟨bufPhys, .intermediate, 0⟩) ∨
      (c.srcType ≠ .hostVirt ∧ (c.cmd bufPhys i).src.space = c.srcType.space ∧
        (c.cmd bufPhys i).src.addr = c.srcByte + 4 * (DMAE_MAX_RW_SIZE * i)) :=
  place_cases bufPhys (hc.byteAddr_src hi hlen)

theorem dst_cases (bufPhys : ℕ) :
    (c.dstType = .hostVirt ∧ (c.cmd bufPhys i).dst = ⟨bufPhys, .intermediate, 0⟩) ∨
      (c.dstType ≠ .hostVirt ∧ (c.cmd bufPhys i).dst.space = c.dstType.space ∧
        (c.cmd bufPhys i).dst.addr = c.dstByte + 4 * (DMAE_MAX_RW_SIZE * i)) :=
  place_cases bufPhys (hc.byteAddr_dst hi hlen)

section

variable (hk : s.Kept c (DMAE_MAX_RW_SIZE * i))

include hk

/-- The source of the command is filled when it is posted. -/
theorem filled_src : Filled { s with mem := s.fillBuffer c i } c i (c.cmd bufPhys i).src := by
  have hchunk := hc.chunk_eq hi
  intro j hj
  have hsource : s.mem c.srcType.space (c.srcByte + 4 * (DMAE_MAX_RW_SIZE * i) + j) =
      s.before c.srcType.space (c.srcByte + 4 * (DMAE_MAX_RW_SIZE * i) + j) := by
    rw [Nat.add_assoc]
    exact hk.source _ (by omega)
  rcases src_cases hc hi hlen bufPhys with ⟨ht, hsrc⟩ | ⟨ht, hspace, haddr⟩
  · have haddr := hc.byteAddr_src hi hlen
    rw [ht] at haddr
    change c.srcAddrSplit i = _ at haddr
    rw [hsrc]
    dsimp only
    rw [fillBuffer, if_pos ht, copy_inside hj, haddr, ← hsource, ht]
    rfl
  · rw [hspace, haddr, fillBuffer, if_neg ht]
    exact hsource

/-- The engine leaves the source and the earlier chunks alone. -/
theorem Kept.complete {src : DmaeSpace} {a : ℕ} {s' : DmaeSys} (hbefore : s'.before = s.before)
    (hmem : s'.mem = s.mem.copy (c.cmd bufPhys i).dst.space (c.cmd bufPhys i).dst.addr src a
      (4 * c.lengthCur i)) :
    s'.Kept c (DMAE_MAX_RW_SIZE * i) := by
  have hchunk := hc.chunk_eq hi
  rcases dst_cases hc hi hlen bufPhys with ⟨ht, hdst⟩ | ⟨ht, hspace, haddr⟩
  · refine hk.congr (by omega) hbefore fun sp x hx => ?_
    rw [hmem, hdst]
    exact congrFun (copy_of_ne (uses_ne_intermediate hx)) x
  · rw [hspace] at hmem
    refine ⟨fun j hj => ?_, fun j hj => ?_⟩
    · rw [hmem, hbefore, copy_outside]
      · exact hk.source j hj
      · intro hsp
        rcases hc.fits.apart hsp with h | h <;> omega
    · rw [hmem, hbefore, copy_outside]
      · exact hk.dest j hj
      · omega

theorem Kept.drain (hf : s.Filled c i (c.cmd s.bufPhys i).dst) :
    Kept { s with mem := s.drainBuffer c i } c
      (min (DMAE_MAX_RW_SIZE * (i + 1)) c.sizeInDwords) := by
  have hchunk := hc.chunk_eq hi
  rcases dst_cases hc hi hlen s.bufPhys with ⟨ht, hdst⟩ | ⟨ht, hspace, haddr⟩
  · have haddr := hc.byteAddr_dst hi hlen
    rw [ht] at haddr
    change c.dstAddrSplit i = _ at haddr
    have hmem : s.drainBuffer c i = s.mem.copy c.dstType.space
        (c.dstByte + 4 * (DMAE_MAX_RW_SIZE * i)) .intermediate 0 (4 * c.lengthCur i) := by
      rw [drainBuffer, haddr, ht]
      rfl
    rw [hdst] at hf
    refine ⟨fun j hj => ?_, fun j hj => ?_⟩
    · dsimp only
      rw [hmem, copy_outside]
      · exact hk.source j hj
      · intro hsp
        rcases hc.fits.apart hsp with h | h <;> omega
    · dsimp only
      rw [hmem]
      by_cases hold : j < 4 * (DMAE_MAX_RW_SIZE * i)
      · rw [copy_outside fun _ => by omega]
        exact hk.dest j hold
      · obtain ⟨k, rfl⟩ := Nat.exists_eq_add_of_le (Nat.le_of_not_lt hold)
        rw [← Nat.add_assoc, ← Nat.add_assoc, copy_inside (by omega)]
        exact hf k (by omega)
  · rw [drainBuffer, if_neg ht]
    refine ⟨hk.source, fun j hj => ?_⟩
    by_cases hold : j < 4 * (DMAE_MAX_RW_SIZE * i)
    · exact hk.dest j hold
    · obtain ⟨k, rfl⟩ := Nat.exists_eq_add_of_le (Nat.le_of_not_lt hold)
      have hk := hf k (by omega)
      rw [hspace, haddr, Nat.add_assoc, Nat.add_assoc] at hk
      exact hk

end

end Chunk

/-- The loop ends with the transfer done: its counter is behind the last turn. If it runs around
first, then the loop does not end. -/
theorem moved_of_atLoop (hi : i < 2 ^ 16) (hend : c.cntSplit < i) (hfits : c.Apt)
    (hdata : c.Regular → s.AtLoop c i) (hrepl : c.rwReplSrc = false)
    (hsize : c.sizeInDwords < 2 ^ 29) :
    Moved s.bufPhys ⟨c, .success, s.posted, s.completed, s.before, s.mem⟩ := by
  have hlt : c.sizeInDwords < (2 ^ 16 - 1) * DMAE_MAX_RW_SIZE := by
    unfold cntSplit DMAE_MAX_RW_SIZE at *
    omega
  have hc : c.Regular := ⟨hlt, hrepl, hfits hrepl hsize⟩
  obtain ⟨hle, hposted, hcompleted, hkept⟩ := hdata hc
  obtain rfl : i = c.cntSplit + 1 := by omega
  rw [hc.min_end] at hkept
  refine ⟨hposted, hcompleted, ?_, hkept.dest⟩
  rw [hc.turns_cover le_rfl, hc.min_end]

theorem Inv.loopTurn (h : s.Honest) (hi : i < 2 ^ 16) (hfits : c.Apt) (hq : s.Quiet)
    (hdata : c.Regular → s.AtLoop c i) : (s.loopTurn c i).Inv := by
  unfold DmaeSys.loopTurn
  split
  swap
  · exact honest_ret h fun _ _ => moved_of_atLoop hi (by omega) hfits hdata
  next hle =>
  split
  · -- the last chunk is empty
    next hlen =>
    refine ⟨h, ?_⟩
    refine ⟨mod_lt _ (by omega), hfits, { hq with }, fun hc => ?_⟩
    have hlt := hc.cntSplit_lt
    have hchunk := hc.chunk_eq hle
    obtain ⟨-, hposted, hcompleted, hkept⟩ := hdata hc
    rw [mod_eq_of_lt (by omega)]
    refine ⟨by omega, ?_, ?_, ?_⟩
    · rw [cmdsBefore_succ_of_zero hlen]
      exact hposted
    · rw [cmdsBefore_succ_of_zero hlen]
      exact hcompleted
    · rw [hc.min_start hle] at hkept
      rw [← hchunk, hlen]
      exact hkept.congr (by omega) rfl fun _ _ _ => rfl
  next hlen =>
  have hwait : c.Regular → AtWait { s with
        mem := s.fillBuffer c i
        posted := s.posted ++ [c.cmd s.bufPhys i] } c i false := by
    intro hc
    obtain ⟨-, hposted, hcompleted, hkept⟩ := hdata hc
    rw [hc.min_start hle] at hkept
    have hchunk := hc.chunk_eq hle
    refine ⟨?_, hcompleted, ?_, ?_⟩
    · rw [cmdsBefore_succ hlen, ← hposted]
    · refine hkept.congr (by omega) rfl fun sp x hx => ?_
      exact congrFun (fillBuffer_of_ne (uses_ne_intermediate hx)) x
    · exact filled_src hc hle hlen hkept
  unfold qedDmaePostCommand
  split
  · refine ⟨h, hle, hlen, hfits, .posted rfl ?_ hq.word fun hc => ?_⟩
    · change (s.posted ++ [_]).length = s.completed.length + 1
      rw [length_append, hq.all]
      rfl
    · exact { hwait hc with kept := { (hwait hc).kept with } }
  · exact ⟨h, hle, hlen, hfits, .refused { hq with }⟩

theorem Inv.waitTurn (h : s.Honest) {waitCnt : ℕ} (hle : i ≤ c.cntSplit) (hlen : c.lengthCur i ≠ 0)
    (hfits : c.Apt) (hw : s.Waiting c i) : (s.waitTurn c i waitCnt).Inv := by
  unfold DmaeSys.waitTurn
  split
  · next hword =>
    -- only a command that is carried out completes the word
    cases hw with
    | refused hq => exact absurd hword hq.word
    | posted hout hone hne hdata => exact absurd hword hne
    | done hall hdata =>
      refine ⟨h, mod_lt _ (by omega), hfits, ⟨hall, by nofun⟩, fun hc => ?_⟩
      obtain ⟨hposted, hcompleted, hkept, hfilled⟩ := hdata hc
      have hlt := hc.cntSplit_lt
      rw [mod_eq_of_lt (by omega)]
      refine ⟨by omega, hposted, hcompleted, ?_⟩
      have hdrain := hkept.drain hc hle hlen hfilled
      exact { hdrain with }
  · split
    · exact honest_ret h (by nofun)
    · refine ⟨h, hle, hlen, hfits, ?_⟩
      cases hw with
      | refused hq => exact .refused { hq with }
      | posted hout hone hne hdata =>
        exact .posted hout hone hne fun hc => { hdata hc with kept := { (hdata hc).kept with } }
      | done hall hdata =>
        exact .done hall fun hc => { hdata hc with kept := { (hdata hc).kept with } }

theorem Inv.turn (h : s.Inv) : s.turn.Inv := by
  have hrun := h.running
  unfold DmaeSys.turn Running at *
  cases hpc : s.pc with
  | idle => exact h
  | loop c i =>
    rw [hpc] at hrun
    obtain ⟨hi, hfits, hq, hdata⟩ := hrun
    exact Inv.loopTurn h.honest hi hfits hq hdata
  | wait c i waitCnt =>
    rw [hpc] at hrun
    obtain ⟨hle, hlen, hfits, hw⟩ := hrun
    exact Inv.waitTurn h.honest hle hlen hfits hw

/-- The transfer that runs has no command in the engine. -/
theorem complete_of_all (h : s.posted.length = s.completed.length) {k : ℕ} (hk : s.stale ≤ k) :
    s.complete k = s := by
  unfold stale at hk
  unfold complete
  rw [getElem?_eq_none (by omega)]

/-- The engine carries out the command that the driver waits for. -/
theorem Waiting.complete (hle : i ≤ c.cntSplit) (hlen : c.lengthCur i ≠ 0) (hw : s.Waiting c i)
    {k : ℕ} (hk : s.stale ≤ k) : (s.complete k).Waiting c i := by
  cases hw with
  | refused hq =>
    rw [complete_of_all hq.all hk]
    exact .refused hq
  | done hall hdata =>
    rw [complete_of_all hall hk]
    exact .done hall hdata
  | @posted stale hout hone hne hdata =>
    have hlast : stale.length ≤ k := by
      rw [DmaeSys.stale, hone, hout, length_append, length_singleton] at hk
      omega
    unfold DmaeSys.complete
    rw [hout, getElem?_append_right hlast]
    cases hk' : k - stale.length with
    | succ k => exact .posted hout hone hne hdata
    | zero =>
      refine .done ?_ fun hc => ?_
      · change s.posted.length = (s.completed ++ [_]).length
        rw [hone, length_append]
        rfl
      obtain ⟨hposted, hcompleted, hkept, hfilled⟩ := hdata hc
      refine ⟨hposted, ?_, hkept.complete hc hle hlen rfl rfl, fun j hj => ?_⟩
      · change s.completed ++ [_] = c.cmdsBefore s.bufPhys (i + 1)
        rw [cmdsBefore_succ hlen, hcompleted]
        rfl
      · exact (copy_inside hj).trans (hfilled j hj)

theorem complete_frame (s : DmaeSys) (k : ℕ) :
    (s.complete k).log = s.log ∧ (s.complete k).pc = s.pc ∧ (s.complete k).bufPhys = s.bufPhys := by
  unfold complete
  cases s.outstanding[k]? <;> exact ⟨rfl, rfl, rfl⟩

theorem Inv.complete (h : s.Inv) {k : ℕ} (hok : s.pc ≠ .idle → s.stale ≤ k) :
    (s.complete k).Inv := by
  obtain ⟨hlog, hpc, hbuf⟩ := complete_frame s k
  have hrun := h.running
  refine ⟨?_, ?_⟩
  · unfold Honest
    rw [hlog, hbuf]
    exact h.honest
  unfold Running at *
  rw [hpc]
  cases hpc' : s.pc with
  | idle => trivial
  | loop c i =>
    rw [hpc'] at hrun
    rw [complete_of_all hrun.2.2.1.all (hok (by simp [hpc']))]
    exact hrun
  | wait c i waitCnt =>
    rw [hpc'] at hrun
    obtain ⟨hle, hlen, hfits, hw⟩ := hrun
    exact ⟨hle, hlen, hfits, hw.complete hle hlen (hok (by simp [hpc']))⟩

theorem Inv.begin (h : s.Inv) (hok : s.pc = .idle → c.bMemReady → c.recovInProg = false →
    s.completionWord ≠ DMAE_COMPLETION_VAL ∧ c.Apt) : (s.begin c).Inv := by
  unfold DmaeSys.begin
  split
  swap
  · exact h
  next hpc =>
  unfold qedDmaeExecuteCommand
  dsimp only
  split
  · refine honest_ret ?_ ?_
    · exact h.honest
    · nofun
  next hready =>
  split
  · next hrecov =>
    refine honest_ret ?_ ?_
    · exact h.honest
    · intro _ hno
      rw [hrecov] at hno
      exact nomatch hno
  · next hrecov =>
    obtain ⟨hword, hfits⟩ := hok hpc (by simpa using hready) (by simpa using hrecov)
    refine ⟨h.honest, by decide, hfits, ⟨rfl, hword⟩, fun hc => ?_⟩
    refine ⟨Nat.zero_le _, rfl, rfl, fun j _ => rfl, fun j hj => ?_⟩
    omega

/-! ## Writes from outside -/

section Store

variable {m : DmaeMem} (hbuf : m .intermediate = s.mem .intermediate)
  (hmem : ∀ sp x, c.Uses sp x → m sp x = s.mem sp x)

include hmem in
theorem AtLoop.store (h : s.AtLoop c i) : AtLoop { s with mem := m } c i :=
  ⟨h.le, h.posted, h.completed, h.kept.congr (Nat.min_le_right _ _) rfl hmem⟩

include hbuf hmem

theorem AtWait.store (hc : c.Regular) (hle : i ≤ c.cntSplit) (hlen : c.lengthCur i ≠ 0)
    {done : Bool}
    (h : s.AtWait c i done) : AtWait { s with mem := m } c i done := by
  have hchunk := hc.chunk_eq hle
  refine ⟨h.posted, h.completed, h.kept.congr (by omega) rfl hmem, h.filled.congr rfl ?_⟩
  intro j hj
  cases done with
  | false =>
    rcases src_cases hc hle hlen s.bufPhys with ⟨-, hsrc⟩ | ⟨-, hspace, haddr⟩
    · rw [hsrc]
      exact congrFun hbuf _
    · rw [if_neg (by decide), hspace]
      exact hmem _ _ (.inl ⟨rfl, by omega, by omega⟩)
  | true =>
    rcases dst_cases hc hle hlen s.bufPhys with ⟨-, hdst⟩ | ⟨-, hspace, haddr⟩
    · rw [hdst]
      exact congrFun hbuf _
    · rw [if_pos rfl, hspace]
      exact hmem _ _ (.inr ⟨rfl, by omega, by omega⟩)

theorem Waiting.store (hle : i ≤ c.cntSplit) (hlen : c.lengthCur i ≠ 0) (hw : s.Waiting c i) :
    Waiting { s with mem := m } c i := by
  cases hw with
  | refused hq => exact .refused { hq with }
  | posted hout hone hne hdata =>
    exact .posted hout hone hne fun hc => (hdata hc).store hbuf hmem hc hle hlen
  | done hall hdata => exact .done hall fun hc => (hdata hc).store hbuf hmem hc hle hlen

end Store

theorem Inv.store (h : s.Inv) {addr : ℕ} {byte : BitVec 8}
    (hok : ∀ c ∈ s.pc.call, sp ≠ .intermediate ∧ ¬c.Uses sp addr) :
    (s.step (.store sp addr byte)).Inv := by
  have hrun := h.running
  have hbuf : sp ≠ .intermediate → update s.mem sp (update (s.mem sp) addr byte) .intermediate =
      s.mem .intermediate := fun hsp => update_of_ne hsp.symm _ _
  have hmem : ∀ {c : DmaeCall}, ¬c.Uses sp addr → ∀ sp' x, c.Uses sp' x →
      update s.mem sp (update (s.mem sp) addr byte) sp' x = s.mem sp' x := by
    intro c hno sp' x hx
    by_cases heq : sp' = sp
    · subst heq
      rw [update_self]
      exact update_of_ne (fun hxa : x = addr => hno (hxa ▸ hx)) _ _
    · rw [update_of_ne heq]
  refine ⟨h.honest, ?_⟩
  unfold Running at *
  change match s.pc with | .idle => _ | .loop c i => _ | .wait c i _ => _
  cases hpc : s.pc with
  | idle => trivial
  | loop c i =>
    rw [hpc] at hrun hok
    obtain ⟨hi, hfits, hq, hdata⟩ := hrun
    exact ⟨hi, hfits, { hq with }, fun hc => (hdata hc).store (hmem (hok c rfl).2)⟩
  | wait c i waitCnt =>
    rw [hpc] at hrun hok
    obtain ⟨hle, hlen, hfits, hw⟩ := hrun
    exact ⟨hle, hlen, hfits, hw.store (hbuf (hok c rfl).1) (hmem (hok c rfl).2) hle hlen⟩

theorem Inv.step (h : s.Inv) {e : DmaeEvent} (hok : s.Sound e) : (s.step e).Inv := by
  cases e with
  | host2grc a g n env => exact h.begin (hok _ rfl)
  | grc2host g a n env => exact h.begin (hok _ rfl)
  | host2host a b n env => exact h.begin (hok _ rfl)
  | turn => exact h.turn
  | complete k => exact h.complete hok
  | store sp addr byte => exact h.store hok

/-- The driver before its first transfer: the buffers and the completion word are allocated, and the
engine is idle. -/
def start (bufPhys waitCntLimit : ℕ) (mem : DmaeMem) (word : ℕ) : DmaeSys :=
  { bufPhys := bufPhys, waitCntLimit := waitCntLimit, mem := mem, completionWord := word
    outstanding := [], pc := .idle, posted := [], completed := [], before := mem, log := [] }

theorem inv_start (bufPhys waitCntLimit : ℕ) (mem : DmaeMem) (word : ℕ) :
    (start bufPhys waitCntLimit mem word).Inv :=
  ⟨by nofun, trivial⟩

/-- **A transfer that reports success has happened**, in every interleaving of transfers, polls and
completions in which each transfer begins with a clear completion word and no command of an earlier
one is carried out while it runs. -/
theorem dmae_honest_run {bufPhys waitCntLimit word : ℕ} {mem : DmaeMem} {l : List DmaeEvent}
    (h : Meets Sound step (start bufPhys waitCntLimit mem word) l) :
    (l.foldl step (start bufPhys waitCntLimit mem word)).Honest :=
  (h.invariant (P := Inv) (fun _ _ hs hok => hs.step hok) (inv_start ..)).honest

/-- A run of the driver with its limit of 10000 polls, from zeroed memory. -/
def run (l : List DmaeEvent) : DmaeSys := l.foldl step (start 0x80000 10000 (fun _ _ => 0) 0)

/-- A register is written, and a block of two commands is read back; the command of the last
transfer is still in the engine. -/
def writeAndReadBack : List DmaeEvent :=
  [.store .hostVirt 0x1001 7, .host2grc 0x1000 0x100 1 {}, .turn, .turn, .complete 0, .turn, .turn,
    .grc2host 0x100 0x9000 0x2001 {}, .turn, .complete 0, .turn, .turn, .complete 0, .turn, .turn,
    .host2host 0x1000 0x2000 1 {}, .turn]

theorem honest_writeAndReadBack :
    (run writeAndReadBack).log.map rc = [.success, .success] ∧ (run writeAndReadBack).Honest :=
  ⟨by decide +kernel, dmae_honest_run (by decide +kernel)⟩

/-! ## A late completion -/

/-- The polls of a command that is not carried out. -/
theorem foldl_polls (n : ℕ) : ∀ {s : DmaeSys} {waitCnt : ℕ}, s.pc = .wait c i waitCnt →
    s.completionWord ≠ DMAE_COMPLETION_VAL → waitCnt + n ≤ s.waitCntLimit →
    (replicate n DmaeEvent.turn).foldl step s = { s with pc := .wait c i (waitCnt + n) } := by
  induction n with
  | zero =>
    intro s waitCnt hpc _ _
    rw [Nat.add_zero, ← hpc]
    rfl
  | succ n ih =>
    intro s waitCnt hpc hword hle
    have hstep : s.step .turn = { s with pc := .wait c i (waitCnt + 1) } := by
      change s.turn = _
      rw [turn, hpc]
      change s.waitTurn c i waitCnt = _
      rw [waitTurn, if_neg hword, if_neg (by omega)]
    have hrest := ih (s := { s with pc := .wait c i (waitCnt + 1) }) rfl hword
      (by change _ ≤ s.waitCntLimit; omega)
    rw [replicate_succ, foldl_cons, hstep, hrest, Nat.add_assoc, Nat.add_comm 1 n]

theorem foldl_polls_ebusy (hpc : s.pc = .wait c i 0)
    (hword : s.completionWord ≠ DMAE_COMPLETION_VAL) :
    (replicate (s.waitCntLimit + 1) DmaeEvent.turn).foldl step s = s.ret c .ebusy := by
  rw [replicate_succ', foldl_append, foldl_polls s.waitCntLimit hpc hword (by omega)]
  change waitTurn _ c i (0 + s.waitCntLimit) = _
  rw [waitTurn, if_neg hword, if_pos (by change s.waitCntLimit < _; omega)]
  rfl

/-- The driver posts a command and polls until it gives up on it. -/
def giveUp : List DmaeEvent := [.host2grc 0x1000 0x100 1 {}, .turn] ++ replicate 10001 .turn

theorem run_giveUp : run giveUp =
    (run [.host2grc 0x1000 0x100 1 {}, .turn]).ret (qedDmaeHost2grc 0x1000 0x100 1 {}) .ebusy := by
  rw [run, giveUp, foldl_append]
  exact foldl_polls_ebusy rfl (by decide)

/-- The command is carried out later, and another transfer begins. -/
def lateCompletion (next : DmaeEvent) : List DmaeEvent :=
  giveUp ++ [.complete 0, next, .turn, .turn, .turn]

theorem run_lateCompletion (next : DmaeEvent) : run (lateCompletion next) =
    [.complete 0, next, .turn, .turn, .turn].foldl step
      ((run [.host2grc 0x1000 0x100 1 {}, .turn]).ret
      (qedDmaeHost2grc 0x1000 0x100 1 {}) .ebusy) := by
  rw [← run_giveUp, run, lateCompletion, foldl_append]
  rfl

/-- The late completion is taken for that of the next transfer, which returns 0 with its command
still in the engine; or without any command posted, if its address is 0. -/
theorem not_honest_lateCompletion :
    ¬(run (lateCompletion (.host2grc 0x2000 0x200 1 {}))).Honest ∧
      ¬(run (lateCompletion (.host2grc 0x2000 0 1 {}))).Honest := by
  rw [run_lateCompletion, run_lateCompletion]
  refine ⟨fun h => ?_, fun h => ?_⟩
  · have hcompleted := fun r hr h₁ h₂ h₃ h₄ => (h r hr h₁ h₂ h₃ h₄).completed
    revert hcompleted
    decide +kernel
  · have hposted := fun r hr h₁ h₂ h₃ h₄ => (h r hr h₁ h₂ h₃ h₄).posted
    revert hposted
    decide +kernel

end DmaeSys

end FastLinQ.Qed
