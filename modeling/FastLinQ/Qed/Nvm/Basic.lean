import FastLinQ.Foundations.Loop
import FastLinQ.Qed.MfwField

/-!
# Access to the NVM

`qed_mcp_nvm_read` and `qed_mcp_nvm_write` move a buffer in pieces of at most `MCP_DRV_NVM_BUF_LEN`
bytes, one mailbox command of the management firmware (MFW) for each piece. How far the loops go on
is decided by the MFW: the response parameter of a read is the number of bytes that were read, and
the response parameter of `DRV_MSG_CODE_NVM_PUT_FILE_DATA` holds the next piece to be delivered.

All variables are `u32` of the source. A run of a loop is over an endless supply of replies, of
which each turn takes one. The byte `k` of the caller's buffer is `p_buf[k]`; what is behind the
buffer has the numbers from `len` on.
-/

namespace FastLinQ.Qed

/-! ## Fields of a mailbox parameter -/

def drvMbParamNvmOffset : MfwField := ⟨0x00ffffff, 0⟩

def drvMbParamNvmLen : MfwField := ⟨0xff000000, 24⟩

def fwMbParamNvmPutFileReqOffset : MfwField := ⟨0x00ffffff, 0⟩

def fwMbParamNvmPutFileReqSize : MfwField := ⟨0xff000000, 24⟩

/-- The offset field holds the low 24 bits. -/
theorem toNat_getMfwField_offset (name : BitVec 32) :
    (getMfwField name drvMbParamNvmOffset).toNat = name.toNat % 2 ^ 24 := by
  change ((name &&& 0x00ffffff) >>> 0).toNat = _
  exact Nat.and_two_pow_sub_one_eq_mod _ 24

/-- Setting the length leaves the offset that was set before. -/
theorem getMfwField_offset_setMfwField (name value len : BitVec 32) :
    getMfwField (setMfwField (setMfwField name drvMbParamNvmOffset value) drvMbParamNvmLen len)
      drvMbParamNvmOffset = getMfwField value drvMbParamNvmOffset := by
  rw [getMfwField_set_of_disjoint _ _ (by decide), getMfwField_set_self]
  change ((value <<< 0) &&& _) >>> 0 = (value &&& _) >>> 0
  rw [BitVec.shiftLeft_zero]

/-! ## Mailbox commands -/

/-- `MCP_DRV_NVM_BUF_LEN`, which is also the size of `union drv_union_data`. -/
def mcpDrvNvmBufLen : ℕ := 32

def fwMsgCodeNvmOk : BitVec 32 := 0x00010000

def fwMsgCodeNvmPutFileFinishOk : BitVec 32 := 0x00400000

def fwMsgCodeOk : BitVec 32 := 0x00160000

def fwMsgCodeError : BitVec 32 := 0x00170000

/-- The errors that are returned: `-EAGAIN`, `-EBUSY`, `-EINVAL` and `-ENOMEM`. -/
inductive NvmErr
  | again
  | busy
  | inval
  | nomem
  deriving DecidableEq, Repr

/-- What the MFW returns for a command; `raw_data` is the union data. -/
structure NvmAnswer where
  resp : BitVec 32
  param : BitVec 32
  rawData : Fin mcpDrvNvmBufLen → BitVec 8

/-- What `qed_mcp_cmd_and_union` makes of a command: the answer of the MFW, or an error, before or
after the command was written to the mailbox. -/
inductive NvmReply
  | answer (a : NvmAnswer)
  | error (rc : NvmErr) (sent : Bool)

/-- The response parameter; 0 if there is none. -/
def NvmReply.param : NvmReply → BitVec 32
  | .answer a => a.param
  | .error _ _ => 0

/-! ## Reading -/

/-- The `memcpy` of `qed_mcp_nvm_rd_cmd`, with the parameter of the command it belongs to: `size`
bytes of `raw_data` go to `p_buf + dst`. -/
structure NvmCopy where
  param : BitVec 32
  dst : ℕ
  size : ℕ
  rawData : Fin mcpDrvNvmBufLen → BitVec 8

def NvmCopy.Writes (c : NvmCopy) (k : ℕ) : Prop := c.dst ≤ k ∧ k < c.dst + c.size
  deriving Decidable

/-- What the `memcpy` leaves in memory. Behind `raw_data` it reads the stack. -/
def NvmCopy.memcpy (c : NvmCopy) (stack mem : ℕ → BitVec 8) (k : ℕ) : BitVec 8 :=
  if c.Writes k then
    if h : k - c.dst < mcpDrvNvmBufLen then c.rawData ⟨k - c.dst, h⟩ else stack (k - c.dst)
  else mem k

/-- The variables of `qed_mcp_nvm_read`, with what was copied so far. -/
structure NvmRead where
  mem : ℕ → BitVec 8
  bytesLeft : BitVec 32
  offset : BitVec 32
  nvmOffset : BitVec 32
  resp : BitVec 32
  rc : Option NvmErr
  /-- the loop was left by `break` or not entered -/
  broke : Bool
  copies : List NvmCopy

/-- `min_t(u32, n, MCP_DRV_NVM_BUF_LEN)`. -/
def minBufLen (n : BitVec 32) : BitVec 32 := if n.toNat < mcpDrvNvmBufLen then n else 32

def NvmRead.request (addr : BitVec 32) (s : NvmRead) : BitVec 32 :=
  setMfwField (setMfwField s.nvmOffset drvMbParamNvmOffset (addr + s.offset)) drvMbParamNvmLen
    (minBufLen s.bytesLeft)

/-- What `qed_mcp_nvm_rd_cmd` copies for an answer: as much as the response parameter says. -/
def NvmRead.copy (addr : BitVec 32) (s : NvmRead) (a : NvmAnswer) : NvmCopy :=
  ⟨s.request addr, s.offset.toNat, a.param.toNat, a.rawData⟩

/-- One turn of the loop of `qed_mcp_nvm_read`. -/
def NvmRead.turn (addr : BitVec 32) (stack : ℕ → BitVec 8) (s : NvmRead) : NvmReply → NvmRead
  | .error rc _ =>
    { s with nvmOffset := s.request addr, rc := some rc, resp := fwMsgCodeError, broke := true }
  | .answer a =>
    let s' :=
      { s with
        nvmOffset := s.request addr
        resp := a.resp
        mem := (s.copy addr a).memcpy stack s.mem
        copies := s.copies ++ [s.copy addr a] }
    if a.resp = fwMsgCodeNvmOk then
      { s' with offset := s.offset + a.param, bytesLeft := s.bytesLeft - a.param }
    else { s' with rc := some .inval, broke := true }

def NvmRead.Finished (s : NvmRead) : Prop := s.broke = true ∨ s.bytesLeft = 0

instance : DecidablePred NvmRead.Finished := fun _ => inferInstanceAs (Decidable (_ ∨ _))

/-- The state in which the loop of `qed_mcp_nvm_read` is entered; it is not entered without a PTT
window. -/
def NvmRead.start (ptt : Bool) (len : BitVec 32) (mem : ℕ → BitVec 8) : NvmRead :=
  ⟨mem, len, 0, 0, 0, if ptt then none else some .busy, !ptt, []⟩

/-- `qed_mcp_nvm_read` after `n` turns of its loop. -/
def qedMcpNvmRead (ptt : Bool) (addr len : BitVec 32) (mem stack : ℕ → BitVec 8)
    (replies : ℕ → NvmReply) (n : ℕ) : NvmRead :=
  Loop.run NvmRead.Finished (NvmRead.turn addr stack) replies (.start ptt len mem) n

/-! ## Writing -/

/-- The commands of `qed_mcp_nvm_write`. -/
inductive NvmCmd
  | putFileBegin
  | putFileData
  | nvmWriteNvram
  | extPhyFwUpgrade
  | encryptPassword
  | invalid (cmd : BitVec 32)
  deriving DecidableEq, Repr

/-- `buf_idx` and `buf_size`: the piece of the buffer that is delivered next. -/
structure NvmChunk where
  bufIdx : BitVec 32
  bufSize : BitVec 32
  deriving DecidableEq, Repr

def NvmChunk.first (len : BitVec 32) : NvmChunk := ⟨0, minBufLen len⟩

/-- The piece that is delivered after another one, by the response parameter. -/
def NvmChunk.next (cmd : NvmCmd) (len : BitVec 32) (c : NvmChunk) (param : BitVec 32) : NvmChunk :=
  if param ≠ 0 ∧ cmd = .putFileData then
    ⟨getMfwField param fwMbParamNvmPutFileReqOffset, getMfwField param fwMbParamNvmPutFileReqSize⟩
  else ⟨c.bufIdx + c.bufSize, minBufLen (len - (c.bufIdx + c.bufSize))⟩

/-- A piece of the buffer that was written to the mailbox, with the parameter of the command. -/
structure NvmSource where
  param : BitVec 32
  src : ℕ
  size : ℕ
  deriving DecidableEq, Repr

def NvmSource.Reads (r : NvmSource) (k : ℕ) : Prop := r.src ≤ k ∧ k < r.src + r.size

/-- The variables of `qed_mcp_nvm_write`, with what was read of the buffer so far. -/
structure NvmWrite where
  chunk : NvmChunk
  resp : BitVec 32
  rc : Option NvmErr
  /-- the loop was left by `break` or not entered -/
  broke : Bool
  sources : List NvmSource
  deriving DecidableEq, Repr

/-- `data_src_size`, a `u8`. -/
def NvmChunk.dataSrcSize (c : NvmChunk) : ℕ := (c.bufSize.setWidth 8).toNat

def NvmChunk.request (cmd : NvmCmd) (addr : BitVec 32) (c : NvmChunk) : BitVec 32 :=
  if cmd = .putFileBegin then addr
  else ((c.bufSize <<< drvMbParamNvmLen.offset) ||| addr) + c.bufIdx

/-- What of the buffer is written to the mailbox. -/
def NvmChunk.source (cmd : NvmCmd) (addr : BitVec 32) (c : NvmChunk) : NvmSource :=
  ⟨c.request cmd addr, c.bufIdx.toNat, c.dataSrcSize⟩

def NvmReply.sent : NvmReply → Bool
  | .answer _ => true
  | .error _ sent => sent

/-- The result of `qed_mcp_nvm_wr_cmd`, which refuses what is larger than the union data, unless
there is another error before. -/
def NvmChunk.wrCmd (c : NvmChunk) : NvmReply → NvmReply
  | .error rc false => .error rc false
  | r => if mcpDrvNvmBufLen < c.dataSrcSize then .error .inval false else r

/-- The response codes with which the loop goes on. -/
def nvmWriteOk (resp : BitVec 32) : Bool :=
  resp == fwMsgCodeOk || resp == fwMsgCodeNvmOk || resp == fwMsgCodeNvmPutFileFinishOk

def NvmWrite.sourcesAfter (cmd : NvmCmd) (addr : BitVec 32) (s : NvmWrite) (reply : NvmReply) :
    List NvmSource :=
  if reply.sent then s.sources ++ [s.chunk.source cmd addr] else s.sources

/-- One turn of the loop of `qed_mcp_nvm_write`, with the result of the command. -/
def NvmWrite.turnWith (cmd : NvmCmd) (addr len : BitVec 32) (s : NvmWrite) (reply : NvmReply) :
    NvmWrite :=
  let s' := { s with sources := s.sourcesAfter cmd addr reply }
  match reply with
  | .error rc _ => { s' with rc := some rc, resp := fwMsgCodeError, broke := true }
  | .answer a =>
    if nvmWriteOk a.resp then
      { s' with rc := none, resp := a.resp, chunk := s.chunk.next cmd len a.param }
    else { s' with rc := some .inval, resp := a.resp, broke := true }

def NvmWrite.turn (cmd : NvmCmd) (addr len : BitVec 32) (s : NvmWrite) (r : NvmReply) : NvmWrite :=
  s.turnWith cmd addr len (s.chunk.wrCmd r)

def NvmWrite.Finished (len : BitVec 32) (s : NvmWrite) : Prop :=
  s.broke = true ∨ ¬ s.chunk.bufIdx.toNat < len.toNat

instance (len : BitVec 32) : DecidablePred (NvmWrite.Finished len) :=
  fun _ => inferInstanceAs (Decidable (_ ∨ _))

/-- The state in which the loop of `qed_mcp_nvm_write` is entered; it is not entered without a PTT
window and for an invalid command. -/
def NvmWrite.start (ptt : Bool) (cmd : NvmCmd) (len : BitVec 32) : NvmWrite :=
  match ptt, cmd with
  | false, _ => ⟨.first len, 0, some .busy, true, []⟩
  | true, .invalid _ => ⟨.first len, 0, some .inval, true, []⟩
  | true, _ => ⟨.first len, 0, some .inval, false, []⟩

/-- `qed_mcp_nvm_write` after `n` turns of its loop. -/
def qedMcpNvmWrite (ptt : Bool) (cmd : NvmCmd) (addr len : BitVec 32) (replies : ℕ → NvmReply)
    (n : ℕ) : NvmWrite :=
  Loop.run (NvmWrite.Finished len) (NvmWrite.turn cmd addr len) replies (.start ptt cmd len) n

end FastLinQ.Qed
