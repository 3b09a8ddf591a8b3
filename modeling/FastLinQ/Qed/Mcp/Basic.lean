import Mathlib

/-!
# The mailbox of the management firmware

Commands to the management firmware (MFW) go through one mailbox. A caller of
`_qed_mcp_cmd_and_union` waits until no command is pending, writes its command with the next
sequence number, puts an element on `cmd_list`, and waits until the element is completed or its
retries are used up. Whoever holds `cmd_lock` may read a response from the mailbox and complete the
pending element, also for another caller.

Each section under `cmd_lock` is one step of the system; in between, other callers take theirs, and
the firmware answers commands or reboots. A caller makes one call.
-/

namespace FastLinQ.Qed

open Function

/-- `DRV_MSG_SEQ_NUMBER_MASK` and `FW_MSG_SEQ_NUMBER_MASK` take the low 16 bits of a header. -/
def seqNumber (header : ℕ) : ℕ := header % 2 ^ 16

/-- `FW_MSG_CODE_MASK` takes the bits above them. -/
def fwMsgCode (header : ℕ) : ℕ := header / 2 ^ 16 * 2 ^ 16

/-- The inputs of `struct qed_mcp_mb_params`, with the number of retries of the call; the size is 0
if no data is to be returned. -/
structure McpMbParams where
  cmd : ℕ
  param : ℕ
  dataSrc : List (BitVec 8)
  dataDstSize : ℕ
  avoidBlock : Bool
  maxRetries : ℕ
  maxRetries_pos : 0 < maxRetries

/-- The outputs of `struct qed_mcp_mb_params`. -/
structure McpResult where
  mcpResp : ℕ
  mcpParam : ℕ
  dataDst : List (BitVec 8)
  deriving DecidableEq, Repr

structure DrvMb where
  drvMbHeader : ℕ
  drvMbParam : ℕ
  fwMbHeader : ℕ
  fwMbParam : ℕ
  unionData : ℕ → BitVec 8

/-- `struct qed_mcp_cmd_elem`, with the caller whose parameters it points to. -/
structure McpCmdElem where
  caller : ℕ
  expectedSeqNum : ℕ
  isCompleted : Bool
  deriving DecidableEq, Repr

structure McpInfo where
  cmdList : List McpCmdElem
  drvMbSeq : ℕ
  mcpHist : ℕ
  blockCmd : Bool
  deriving DecidableEq, Repr

/-- What a call returns: 0, `-EAGAIN`, `-EINVAL` or `-ENOMEM`. -/
inductive McpRc
  | ok
  | again
  | inval
  | nomem
  deriving DecidableEq, Repr

/-- Where a caller is: before its call, in the loop that waits for the mailbox, in the loop that
waits for the response, behind that loop with its retries used up, or back. -/
inductive McpPhase
  | idle
  | occupied (cnt : ℕ)
  | waiting (cnt : ℕ)
  | expired
  | returned (rc : McpRc)
  deriving DecidableEq, Repr

structure McpAnswer where
  code : ℕ
  param : ℕ
  data : ℕ → BitVec 8

/-- A command that was written to the mailbox, and whether another one was pending. -/
structure McpSend where
  caller : ℕ
  seqNum : ℕ
  pending : Bool
  deriving DecidableEq, Repr

structure McpSys where
  info : McpInfo
  mb : DrvMb
  /-- `MISCS_REG_GENERIC_POR_0`, which changes when the firmware reboots -/
  genericPor0 : ℕ
  params : ℕ → McpMbParams
  phase : ℕ → McpPhase
  result : ℕ → McpResult
  /-- the commands that the firmware has not answered, with their callers -/
  unanswered : List (ℕ × ℕ)
  /-- what the firmware answered, with the callers of the commands -/
  answered : List (ℕ × McpAnswer)
  sends : List McpSend
  /-- the callers whose sequence number was in use for something else -/
  reused : ℕ → Bool

/-! ## The list of commands -/

def qedMcpCmdAddElem (info : McpInfo) (caller seqNum : ℕ) : McpInfo :=
  { info with cmdList := ⟨caller, seqNum, false⟩ :: info.cmdList }

def qedMcpCmdDelElem (info : McpInfo) (caller : ℕ) : McpInfo :=
  { info with cmdList := info.cmdList.filter fun e => e.caller != caller }

def qedMcpCmdGetElem (info : McpInfo) (seqNum : ℕ) : Option McpCmdElem :=
  info.cmdList.find? fun e => e.expectedSeqNum == seqNum

def qedMcpHasPendingCmd (info : McpInfo) : Bool :=
  match info.cmdList with
  | [] => false
  | e :: _ => !e.isCompleted

def McpInfo.isCompleted (info : McpInfo) (caller : ℕ) : Bool :=
  info.cmdList.any fun e => e.caller == caller && e.isCompleted

def McpInfo.complete (info : McpInfo) (caller : ℕ) : McpInfo :=
  { info with
    cmdList :=
      info.cmdList.map fun e => if e.caller = caller then { e with isCompleted := true } else e }

/-! ## The mailbox -/

/-- What the mailbox holds for a caller that asked for `n` bytes of data. -/
def DrvMb.response (mb : DrvMb) (n : ℕ) : McpResult :=
  ⟨mb.fwMbHeader, mb.fwMbParam, (List.range n).map mb.unionData⟩

/-- `__qed_mcp_cmd_and_union`: the union data is cleared behind the data of the command. -/
def DrvMb.command (mb : DrvMb) (p : McpMbParams) (seqNum : ℕ) : DrvMb :=
  { mb with
    drvMbHeader := p.cmd ||| seqNum
    drvMbParam := p.param
    unionData := fun i => p.dataSrc.getD i 0 }

/-- The firmware writes an answer to the command with a sequence number. -/
def DrvMb.answer (mb : DrvMb) (a : McpAnswer) (seqNum : ℕ) : DrvMb :=
  { mb with
    fwMbHeader := a.code * 2 ^ 16 + seqNum
    fwMbParam := a.param
    unionData := a.data }

/-- What a caller should have of an answer, with the low bits of the header. -/
def McpAnswer.result (a : McpAnswer) (low n : ℕ) : McpResult :=
  ⟨a.code * 2 ^ 16 + low, a.param, (List.range n).map a.data⟩

/-! ## Sections under the lock -/

def McpSys.setPhase (s : McpSys) (t : ℕ) (p : McpPhase) : McpSys :=
  { s with phase := update s.phase t p }

def qedMcpUpdatePendingCmd (s : McpSys) : McpSys × McpRc :=
  if seqNumber s.mb.fwMbHeader ≠ s.info.drvMbSeq then (s, .again)
  else
    match qedMcpCmdGetElem s.info (seqNumber s.mb.fwMbHeader) with
    | none => (s, .inval)
    | some e =>
      ({ s with
          info := s.info.complete e.caller
          result := update s.result e.caller
            (s.mb.response (s.params e.caller).dataDstSize) }, .ok)

/-- `qed_mcp_reread_offsets`; `reload` is what the mailbox holds at the offsets that are read,
`none` if `qed_load_mcp_offsets` fails. -/
def qedMcpRereadOffsets (s : McpSys) (reload : Option DrvMb) : McpSys :=
  if s.info.mcpHist = s.genericPor0 then s
  else
    match reload with
    | none => s
    | some mb =>
      { s with
        mb := mb
        info := { s.info with drvMbSeq := seqNumber mb.drvMbHeader, mcpHist := s.genericPor0 } }

/-- `++drv_mb_seq`, in 16 bits. -/
def McpSys.nextSeq (s : McpSys) : McpSys :=
  { s with info := { s.info with drvMbSeq := (s.info.drvMbSeq + 1) % 2 ^ 16 } }

/-- The sequence number of a new command is in the response, or that of a command without answer. -/
def McpSys.seqInUse (s : McpSys) (seqNum : ℕ) : Bool :=
  seqNumber s.mb.fwMbHeader == seqNum || s.unanswered.any fun p => p.2 == seqNum

/-- A command is written with the sequence number `drv_mb_seq`. -/
def McpSys.post (s : McpSys) (t cnt : ℕ) : McpSys :=
  { s with
    info := qedMcpCmdAddElem s.info t s.info.drvMbSeq
    mb := s.mb.command (s.params t) s.info.drvMbSeq
    phase := update s.phase t (.waiting cnt)
    unanswered := (t, s.info.drvMbSeq) :: s.unanswered
    sends := s.sends ++ [⟨t, s.info.drvMbSeq, s.info.cmdList.any fun e => !e.isCompleted⟩]
    reused := update s.reused t (s.seqInUse s.info.drvMbSeq) }

/-- The mailbox is free: the caller sends its command, if there is memory for its element. -/
def McpSys.send (s : McpSys) (t cnt : ℕ) (alloc : Bool) (reload : Option DrvMb) : McpSys :=
  if alloc then (qedMcpRereadOffsets s reload).nextSeq.post t cnt
  else (qedMcpRereadOffsets s reload).nextSeq.setPhase t (.returned .nomem)

/-- The element of the caller is completed: it is removed, and the call returns 0. -/
def McpSys.finish (s : McpSys) (t : ℕ) : McpSys :=
  { s with
    info := qedMcpCmdDelElem s.info t
    phase := update s.phase t (.returned .ok)
    result := update s.result t
      { s.result t with mcpResp := fwMsgCode (s.result t).mcpResp } }

/-- The retries are used up: the element is removed, and further commands are blocked. -/
def McpSys.giveUp (s : McpSys) (t : ℕ) : McpSys :=
  { s with
    info := { qedMcpCmdDelElem s.info t with
      blockCmd := if (s.params t).avoidBlock then s.info.blockCmd else true }
    phase := update s.phase t (.returned .again) }

def McpSys.occupiedTurn (s : McpSys) (t cnt : ℕ) (alloc : Bool) (reload : Option DrvMb) : McpSys :=
  if !qedMcpHasPendingCmd s.info then s.send t cnt alloc reload
  else
    match qedMcpUpdatePendingCmd s with
    | (s, .ok) => s.send t cnt alloc reload
    | (s, .again) =>
      s.setPhase t (if cnt + 1 < (s.params t).maxRetries then .occupied (cnt + 1)
        else .returned .again)
    | (s, rc) => s.setPhase t (.returned rc)

/-- A turn of the loop that waits for the response. An error returns without removing the element.
-/
def McpSys.waitingTurn (s : McpSys) (t cnt : ℕ) : McpSys :=
  if s.info.isCompleted t then s.finish t
  else
    match qedMcpUpdatePendingCmd s with
    | (s, .ok) => s.finish t
    | (s, .again) =>
      s.setPhase t (if cnt + 1 < (s.params t).maxRetries then .waiting (cnt + 1) else .expired)
    | (s, rc) => s.setPhase t (.returned rc)

/-- The next section of `_qed_mcp_cmd_and_union` for a caller. -/
def McpSys.lockSection (s : McpSys) (t : ℕ) (alloc : Bool) (reload : Option DrvMb) : McpSys :=
  match s.phase t with
  | .occupied cnt => s.occupiedTurn t cnt alloc reload
  | .waiting cnt => s.waitingTurn t cnt
  | .expired => s.giveUp t
  | .idle | .returned _ => s

/-! ## Steps -/

inductive McpStep
  /-- A caller enters, and goes on if the chip can be read. -/
  | call (t : ℕ) (me : Bool)
  | lockSection (t : ℕ) (alloc : Bool) (reload : Option DrvMb)
  /-- The firmware answers one of the commands that it has not answered. -/
  | answer (i : ℕ) (a : McpAnswer)
  /-- The firmware reboots: the mailbox holds anything, and it may forget commands. -/
  | reboot (genericPor0 : ℕ) (mb : DrvMb) (keeps : ℕ → Bool)

/-- The sequence number of a pending command is in the response of a mailbox. -/
def McpInfo.pendingSeq (info : McpInfo) (t : ℕ) (mb : DrvMb) : Bool :=
  info.cmdList.any fun e =>
    e.caller == t && !e.isCompleted && e.expectedSeqNum == seqNumber mb.fwMbHeader

def McpSys.step (s : McpSys) : McpStep → McpSys
  | .call t me =>
    if s.phase t = .idle then s.setPhase t (if me then .occupied 0 else .returned .again) else s
  | .lockSection t alloc reload => s.lockSection t alloc reload
  | .answer i a =>
    match s.unanswered[i]? with
    | none => s
    | some p =>
      { s with
        mb := s.mb.answer a p.2
        unanswered := s.unanswered.eraseIdx i
        answered := s.answered ++ [(p.1, a)] }
  | .reboot por mb keeps =>
    { s with
      genericPor0 := por
      mb := mb
      unanswered := s.unanswered.filter fun p => keeps p.1
      reused := fun t => s.reused t || s.info.pendingSeq t mb }

/-- The driver after `qed_mcp_cmd_init`: no command was sent. -/
structure McpSys.Fresh (s : McpSys) : Prop where
  cmdList : s.info.cmdList = []
  drvMbSeq : s.info.drvMbSeq < 2 ^ 16
  phase : ∀ t, s.phase t = .idle
  unanswered : s.unanswered = []
  sends : s.sends = []

end FastLinQ.Qed
