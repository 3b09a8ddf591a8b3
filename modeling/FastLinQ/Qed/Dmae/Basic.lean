import Mathlib

/-!
# The DMA engine

The driver moves data between the host and the registers of the chip (GRC) with the DMA engine of
its function. A transfer is split into commands of at most `DMAE_MAX_RW_SIZE` dwords. Each command
is written to the engine, and the driver then polls one word in host memory, which the engine sets
to `DMAE_COMPLETION_VAL` when the command is done. Data at virtual addresses of the host goes
through an intermediate buffer.

The lock of the engine is held for a whole transfer, so that there is one transfer at a time. The
driver's steps are the start of a transfer, one turn of the loop over the commands up to the post of
the command, and one poll. The engine may carry out a posted command between any two steps, also
when the driver has given up on it.

Memory is a number of spaces of bytes: the host by virtual and by physical addresses, the registers,
and the intermediate buffer.
-/

namespace FastLinQ.Qed

open Function

def DMAE_MAX_RW_SIZE : ℕ := 0x2000

/-- `DMAE_COMPLETION_VAL` on a little-endian host. -/
def DMAE_COMPLETION_VAL : ℕ := 0xD1AE

/-! ## Memory -/

inductive DmaeSpace
  | hostVirt
  | hostPhys
  | grc
  | intermediate
  deriving DecidableEq, Repr

abbrev DmaeMem := DmaeSpace → ℕ → BitVec 8

/-- `n` bytes at `a` of one space are copied to `d` of another. -/
def DmaeMem.copy (m : DmaeMem) (dst : DmaeSpace) (d : ℕ) (src : DmaeSpace) (a n : ℕ) : DmaeMem :=
  update m dst fun x => if d ≤ x ∧ x < d + n then m src (a + (x - d)) else m dst x

/-! ## Transfers and commands -/

inductive DmaeAddressType
  | hostVirt
  | hostPhys
  | grc
  deriving DecidableEq, Repr

/-- The arguments of `qed_dmae_execute_command`, and what it reads of the device: `RW_REPL_SRC` of
the flags, `b_mem_ready`, and whether a recovery is in progress. -/
structure DmaeCall where
  srcAddr : ℕ
  dstAddr : ℕ
  srcType : DmaeAddressType
  dstType : DmaeAddressType
  sizeInDwords : ℕ
  rwReplSrc : Bool
  bMemReady : Bool
  recovInProg : Bool
  deriving DecidableEq, Repr

/-- The flag and the state of the device that a transfer meets. -/
structure DmaeEnv where
  rwReplSrc : Bool := false
  bMemReady : Bool := true
  recovInProg : Bool := false
  deriving DecidableEq, Repr

def qedDmaeHost2grc (sourceAddr grcAddr sizeInDwords : ℕ) (env : DmaeEnv) : DmaeCall :=
  ⟨sourceAddr, grcAddr / 4, .hostVirt, .grc, sizeInDwords, env.rwReplSrc, env.bMemReady,
    env.recovInProg⟩

def qedDmaeGrc2host (grcAddr destAddr sizeInDwords : ℕ) (env : DmaeEnv) : DmaeCall :=
  ⟨grcAddr / 4, destAddr, .grc, .hostVirt, sizeInDwords, env.rwReplSrc, env.bMemReady,
    env.recovInProg⟩

def qedDmaeHost2host (sourceAddr destAddr sizeInDwords : ℕ) (env : DmaeEnv) : DmaeCall :=
  ⟨sourceAddr, destAddr, .hostPhys, .hostPhys, sizeInDwords, env.rwReplSrc, env.bMemReady,
    env.recovInProg⟩

namespace DmaeAddressType

def space : DmaeAddressType → DmaeSpace
  | hostVirt => .hostVirt
  | hostPhys => .hostPhys
  | grc => .grc

/-- The byte that an address stands for; an address of a register counts dwords. -/
def byteAddr (addr : ℕ) : DmaeAddressType → ℕ
  | grc => 4 * addr
  | _ => addr

/-- `src_addr_split` or `dst_addr_split`, `offset` dwords behind an address: a `u32` product is
added to a `u64`. -/
def split (addr offset : ℕ) : DmaeAddressType → ℕ
  | grc => (addr + offset) % 2 ^ 64
  | _ => (addr + offset * 4 % 2 ^ 32) % 2 ^ 64

end DmaeAddressType

/-- An address of a command: the number in the command, and the byte it stands for. -/
structure DmaePlace where
  raw : ℕ
  space : DmaeSpace
  addr : ℕ
  deriving DecidableEq, Repr

/-- The address that goes into the command. Virtual addresses of the host are replaced by that of
the intermediate buffer. -/
def DmaeAddressType.place (bufPhys addr : ℕ) : DmaeAddressType → DmaePlace
  | hostVirt => ⟨bufPhys, .intermediate, 0⟩
  | hostPhys => ⟨addr, .hostPhys, addr⟩
  | grc => ⟨addr, .grc, 4 * addr⟩

structure DmaeCmd where
  src : DmaePlace
  dst : DmaePlace
  lengthDw : ℕ
  deriving DecidableEq, Repr

/-- The check of `qed_dmae_post_command`. -/
def DmaeCmd.NotNull (cmd : DmaeCmd) : Prop := cmd.dst.raw ≠ 0 ∧ cmd.src.raw ≠ 0
  deriving Decidable

namespace DmaeCall

variable (c : DmaeCall)

/-- `cnt_split`, a `u16`. -/
def cntSplit : ℕ := c.sizeInDwords / DMAE_MAX_RW_SIZE % 2 ^ 16

/-- `length_cur` in turn `i`. -/
def lengthCur (i : ℕ) : ℕ :=
  if c.cntSplit = i then c.sizeInDwords % DMAE_MAX_RW_SIZE else DMAE_MAX_RW_SIZE

def srcAddrSplit (i : ℕ) : ℕ :=
  if c.rwReplSrc then c.srcAddr else c.srcType.split c.srcAddr (DMAE_MAX_RW_SIZE * i)

def dstAddrSplit (i : ℕ) : ℕ := c.dstType.split c.dstAddr (DMAE_MAX_RW_SIZE * i)

def cmd (bufPhys i : ℕ) : DmaeCmd :=
  { src := c.srcType.place bufPhys (c.srcAddrSplit i)
    dst := c.dstType.place bufPhys (c.dstAddrSplit i)
    lengthDw := c.lengthCur i }

end DmaeCall

/-! ## The system -/

inductive DmaeRc
  | success
  | enomem
  | ebusy
  deriving DecidableEq, Repr

/-- Where the driver is: outside of a transfer, at the head of the loop with the `u16` counter `i`,
or polling for the command of turn `i`. -/
inductive DmaePc
  | idle
  | loop (c : DmaeCall) (i : ℕ)
  | wait (c : DmaeCall) (i waitCnt : ℕ)
  deriving DecidableEq, Repr

/-- A transfer that has returned, with the commands that were posted and those that were carried out
since it began, and the memory when it began and when it returned. -/
structure DmaeRecord where
  call : DmaeCall
  rc : DmaeRc
  posted : List DmaeCmd
  completed : List DmaeCmd
  before : DmaeMem
  after : DmaeMem

/-- The engine, the memory, the driver, and the history of the transfer that is running.
`waitCntLimit` is the limit of `qed_dmae_operation_wait`. -/
structure DmaeSys where
  bufPhys : ℕ
  waitCntLimit : ℕ
  mem : DmaeMem
  completionWord : ℕ
  outstanding : List DmaeCmd
  pc : DmaePc
  posted : List DmaeCmd
  completed : List DmaeCmd
  before : DmaeMem
  log : List DmaeRecord

namespace DmaeSys

variable (s : DmaeSys)

def ret (c : DmaeCall) (rc : DmaeRc) : DmaeSys :=
  { s with
    pc := .idle
    log := s.log ++ [⟨c, rc, s.posted, s.completed, s.before, s.mem⟩] }

/-- The start of `qed_dmae_execute_command`. -/
def qedDmaeExecuteCommand (c : DmaeCall) : DmaeSys :=
  let s := { s with posted := [], completed := [], before := s.mem }
  if !c.bMemReady then s.ret c .enomem
  -- Let the flow complete w/o any error handling
  else if c.recovInProg then s.ret c .success
  else { s with pc := .loop c 0 }

/-- `qed_dmae_post_command`; its return code is not looked at. -/
def qedDmaePostCommand (cmd : DmaeCmd) : DmaeSys :=
  if cmd.NotNull then
    { s with outstanding := s.outstanding ++ [cmd], posted := s.posted ++ [cmd] }
  else s

/-- The intermediate buffer is filled if the source is virtual memory. -/
def fillBuffer (c : DmaeCall) (i : ℕ) : DmaeMem :=
  if c.srcType = .hostVirt then
    s.mem.copy .intermediate 0 .hostVirt (c.srcAddrSplit i) (4 * c.lengthCur i)
  else s.mem

/-- The destination is filled from the intermediate buffer if it is virtual memory. -/
def drainBuffer (c : DmaeCall) (i : ℕ) : DmaeMem :=
  if c.dstType = .hostVirt then
    s.mem.copy .hostVirt (c.dstAddrSplit i) .intermediate 0 (4 * c.lengthCur i)
  else s.mem

/-- One turn of the loop, up to the wait. The last command may have no length. -/
def loopTurn (c : DmaeCall) (i : ℕ) : DmaeSys :=
  if i ≤ c.cntSplit then
    if c.lengthCur i = 0 then { s with pc := .loop c ((i + 1) % 2 ^ 16) }
    else
      { { s with mem := s.fillBuffer c i }.qedDmaePostCommand (c.cmd s.bufPhys i) with
        pc := .wait c i 0 }
  else s.ret c .success

/-- One poll of `qed_dmae_operation_wait`, and what `qed_dmae_execute_sub_operation` does after the
last one. -/
def waitTurn (c : DmaeCall) (i waitCnt : ℕ) : DmaeSys :=
  if s.completionWord = DMAE_COMPLETION_VAL then
    { s with
      completionWord := 0
      mem := s.drainBuffer c i
      pc := .loop c ((i + 1) % 2 ^ 16) }
  else if s.waitCntLimit < waitCnt + 1 then s.ret c .ebusy
  else { s with pc := .wait c i (waitCnt + 1) }

def turn : DmaeSys :=
  match s.pc with
  | .idle => s
  | .loop c i => s.loopTurn c i
  | .wait c i waitCnt => s.waitTurn c i waitCnt

/-- The engine carries out the `k`-th of its commands and writes the completion word. -/
def complete (k : ℕ) : DmaeSys :=
  match s.outstanding[k]? with
  | none => s
  | some cmd =>
    { s with
      mem := s.mem.copy cmd.dst.space cmd.dst.addr cmd.src.space cmd.src.addr (4 * cmd.lengthDw)
      completionWord := DMAE_COMPLETION_VAL
      outstanding := s.outstanding.eraseIdx k
      completed := s.completed ++ [cmd] }

end DmaeSys

/-- A transfer begins (it waits for the lock while another one runs), the driver takes a step, the
engine carries out a command, or something else writes a byte. -/
inductive DmaeEvent
  | host2grc (sourceAddr grcAddr sizeInDwords : ℕ) (env : DmaeEnv)
  | grc2host (grcAddr destAddr sizeInDwords : ℕ) (env : DmaeEnv)
  | host2host (sourceAddr destAddr sizeInDwords : ℕ) (env : DmaeEnv)
  | turn
  | complete (k : ℕ)
  | store (space : DmaeSpace) (addr : ℕ) (byte : BitVec 8)

def DmaeEvent.call : DmaeEvent → Option DmaeCall
  | host2grc a g n env => some (qedDmaeHost2grc a g n env)
  | grc2host g a n env => some (qedDmaeGrc2host g a n env)
  | host2host a b n env => some (qedDmaeHost2host a b n env)
  | _ => none

def DmaeSys.begin (s : DmaeSys) (c : DmaeCall) : DmaeSys :=
  if s.pc = .idle then s.qedDmaeExecuteCommand c else s

def DmaeSys.step (s : DmaeSys) : DmaeEvent → DmaeSys
  | .host2grc a g n env => s.begin (qedDmaeHost2grc a g n env)
  | .grc2host g a n env => s.begin (qedDmaeGrc2host g a n env)
  | .host2host a b n env => s.begin (qedDmaeHost2host a b n env)
  | .turn => s.turn
  | .complete k => s.complete k
  | .store space addr byte =>
    { s with mem := update s.mem space (update (s.mem space) addr byte) }

end FastLinQ.Qed
