import FastLinQ.Foundations.Word
import FastLinQ.Qed.Cxt.Cid

/-!
# The layout of the ILT

The internal lookup table (ILT) maps the memory of the hardware blocks: each client (contexts of
connections and tasks, queue manager, timers, searcher, shared receive queues) has blocks of lines,
and each line is a page. `qedCxtCfgIltCompute` gives out the lines one after the other, from the
counts of connections and tasks; a block of a VF is laid out once and repeated for the other VFs.
`qedIltShadowAlloc` then allocates a page for each line in a table of its own, `ilt_shadow`.

All numbers are `u32` of the source, with their wrap-around.
-/

namespace FastLinQ.Qed

open Function List

/-! ## Data -/

def PROTOCOLID_ISCSI : ℕ := 0
def PROTOCOLID_FCOE : ℕ := 1
def PROTOCOLID_ROCE : ℕ := 2
def PROTOCOLID_IWARP : ℕ := 5

def NUM_TASK_PF_SEGMENTS : ℕ := 4
def NUM_TASK_VF_SEGMENTS : ℕ := 1
def TASK_SEGMENT_VF : ℕ := NUM_TASK_PF_SEGMENTS
def ILT_CLI_PF_BLOCKS : ℕ := 1 + NUM_TASK_PF_SEGMENTS * 2
def ILT_CLI_VF_BLOCKS : ℕ := 1 + NUM_TASK_VF_SEGMENTS * 2

def CDUC_BLK : ℕ := 0
def SRQ_BLK : ℕ := 0
def CDUT_SEG_BLK (n : ℕ) : ℕ := 1 + n

/-- `CDUT_FL_SEG_BLK(n, X)`, with the number of segments of `X`. -/
def CDUT_FL_SEG_BLK (n numSegments : ℕ) : ℕ := 1 + n + numSegments

inductive IltCli
  | cduc
  | cdut
  | qm
  | tm
  | src
  | tsdm
  | rgfs
  | tgfs
  deriving DecidableEq, Repr

def IltCli.all : List IltCli := [.cduc, .cdut, .qm, .tm, .src, .tsdm, .rgfs, .tgfs]

structure IltCliBlk where
  totalSize : ℕ
  realSizeInPage : ℕ
  startLine : ℕ
  dynamicLineOffset : ℕ
  dynamicLineCnt : ℕ
  deriving DecidableEq, Repr

/-- `struct qed_ilt_client_cfg`, with the values of its registers. -/
structure IltClientCfg where
  active : Bool
  first : ℕ
  last : ℕ
  pSize : ℕ
  pfBlks : ℕ → IltCliBlk
  pfTotalLines : ℕ
  vfBlks : ℕ → IltCliBlk
  vfTotalLines : ℕ

structure TidSeg where
  count : ℕ
  type : ℕ
  hasFlMem : Bool
  deriving DecidableEq, Repr

/-- What does not change between computations: the lines of the function, the number of VFs
(`total_vfs`, or 0 without SR-IOV), the page size and the sizes of the elements. The sizes are those
of the source: a connection context is padded to 2048 bytes, `ilt_page_size` is brought into 4..10
before it is used, and the first line is one of the ILT. `qed_iov_pci_cfg_info` does not accept more
VFs than there are. -/
structure IltHw where
  pfStartLine : ℕ
  rescNum : ℕ
  rescNumPq : ℕ
  vfCount : ℕ
  iltPageSize : ℕ
  connCxtSize : ℕ
  taskTypeSize : ℕ → ℕ
  srqCxtSize : ℕ
  /-- `CONFIG_QED_RDMA_PVRDMA` -/
  pvrdma : Bool
  pfStartLine_le : pfStartLine ≤ 11000
  vfCount_le : vfCount ≤ 192
  le_iltPageSize : 4 ≤ iltPageSize
  iltPageSize_le : iltPageSize ≤ 10
  le_connCxtSize : 2048 ≤ connCxtSize
  connCxtSize_le : connCxtSize ≤ 4096
  taskTypeSize_pos : ∀ type, 0 < taskTypeSize type
  taskTypeSize_le : ∀ type, taskTypeSize type ≤ 4096
  srqCxtSize_pos : 0 < srqCxtSize
  srqCxtSize_le : srqCxtSize ≤ 4096

/-- What is requested: the counts of connections and tasks, and what the queue manager needs. -/
structure IltReq where
  connCfg : ℕ → ConnTypeCfg
  tidSeg : ℕ → ℕ → TidSeg
  srqCount : ℕ
  xrcSrqCount : ℕ
  vfsSrqCount : ℕ
  arfsCount : ℕ
  numPqs : ℕ
  numVfPqs : ℕ
  numPqset : ℕ
  vfRdma : Bool

/-! ## Counts -/

def divRoundUp (n d : ℕ) : ℕ := (n + d - 1) % 2 ^ 32 / d

def roundup (x y : ℕ) : ℕ := (x + (y - 1)) % 2 ^ 32 / y * y

def sumTypes (f : ℕ → ℕ) : ℕ := ((range MAX_CONN_TYPES).map f).sum % 2 ^ 32

def srcProto (pvrdma : Bool) (type : ℕ) : Bool :=
  type = PROTOCOLID_ISCSI || type = PROTOCOLID_FCOE || pvrdma && type = PROTOCOLID_ROCE ||
    type = PROTOCOLID_IWARP

def tmCidProto (type : ℕ) : Bool :=
  type = PROTOCOLID_ISCSI || type = PROTOCOLID_FCOE || type = PROTOCOLID_ROCE ||
    type = PROTOCOLID_IWARP

def tmTidProto (type : ℕ) : Bool := type = PROTOCOLID_FCOE

/-- `qed_cxt_cdu_iids`: `pf_cids` and `per_vf_cids`. -/
def qedCxtCduIids (req : IltReq) : ℕ × ℕ :=
  (sumTypes fun type => (req.connCfg type).cidCount,
    sumTypes fun type => (req.connCfg type).cidsPerVf)

/-- `qed_cxt_src_iids`: `pf_cids` and `per_vf_cids`. -/
def qedCxtSrcIids (hw : IltHw) (req : IltReq) : ℕ × ℕ :=
  ((sumTypes (fun type => if srcProto hw.pvrdma type then (req.connCfg type).cidCount else 0) +
      req.arfsCount) % 2 ^ 32,
    sumTypes fun type => if srcProto hw.pvrdma type then (req.connCfg type).cidsPerVf else 0)

/-- `struct qed_tm_iids`, with the flags of `qed_cxt_tm_iids`. -/
structure TmIids where
  pfCids : ℕ
  pfTids : ℕ → ℕ
  perVfCids : ℕ
  perVfTids : ℕ
  tmRequired : Bool
  tmVfRequired : Bool

/-- One turn of `qed_cxt_tm_iids`. -/
def TmIids.turn (req : IltReq) (t : TmIids) (i : ℕ) : TmIids :=
  let cfg := req.connCfg i
  let pf := tmCidProto i || t.tmRequired
  let vf := tmCidProto i || t.tmVfRequired
  { pfCids := if pf then (t.pfCids + cfg.cidCount) % 2 ^ 32 else t.pfCids
    tmRequired := t.tmRequired || pf && cfg.cidCount != 0
    perVfCids := if vf then (t.perVfCids + cfg.cidsPerVf) % 2 ^ 32 else t.perVfCids
    tmVfRequired := t.tmVfRequired || vf && cfg.cidsPerVf != 0
    pfTids := fun j =>
      if tmTidProto i then (t.pfTids j + (req.tidSeg i j).count) % 2 ^ 32 else t.pfTids j
    perVfTids :=
      if tmTidProto i then (t.perVfTids + (req.tidSeg i TASK_SEGMENT_VF).count) % 2 ^ 32
      else t.perVfTids }

/-- The loop of `qed_cxt_tm_iids`: from the last connection type on. -/
def tmIidsLoop (req : IltReq) : TmIids :=
  (range MAX_CONN_TYPES).reverse.foldl (TmIids.turn req)
    ⟨0, fun _ => 0, 0, 0, false, false⟩

def TM_ALIGN : ℕ := 2 ^ 7
def TM_ELEM_SIZE : ℕ := 4

def tmPfTotal (req : IltReq) : ℕ :=
  (roundup (tmIidsLoop req).pfCids TM_ALIGN +
    ((range NUM_TASK_PF_SEGMENTS).map fun j => roundup ((tmIidsLoop req).pfTids j) TM_ALIGN).sum)
      % 2 ^ 32

def tmVfTotal (req : IltReq) : ℕ :=
  (roundup (tmIidsLoop req).perVfCids TM_ALIGN +
    roundup (tmIidsLoop req).perVfTids TM_ALIGN) % 2 ^ 32

/-- `qed_cxt_qm_iids`: `cids`, `vf_cids` and `tids`. -/
def qedCxtQmIids (hw : IltHw) (req : IltReq) : ℕ × ℕ × ℕ :=
  let cids := sumTypes fun type => (req.connCfg type).cidCount
  let vfCids := sumTypes fun type => (req.connCfg type).cidsPerVf
  let tids := sumTypes fun type =>
    ((range NUM_TASK_PF_SEGMENTS).map fun j => (req.tidSeg type j).count).sum
  let vfTids := sumTypes fun type => (req.tidSeg type TASK_SEGMENT_VF).count
  (if req.numPqset ≠ 0 then (cids + vfCids * hw.vfCount) % 2 ^ 32 else cids,
    if req.numPqset ≠ 0 then 0 else vfCids, (tids + vfTids * hw.vfCount) % 2 ^ 32)

def QM_PQ_ELEMENT_SIZE : ℕ := 4
def QM_OTHER_PQS_PER_PF : ℕ := 4

def qmPqMem4kb (pqSize : ℕ) : ℕ :=
  if pqSize ≠ 0 then divRoundUp ((pqSize + 1) * QM_PQ_ELEMENT_SIZE % 2 ^ 32) 0x1000 else 0

def qedQmPfMemSize (numPfCids numVfCids numTids numPfPqs numVfPqs : ℕ) : ℕ :=
  (qmPqMem4kb numPfCids * numPfPqs + qmPqMem4kb numVfCids * numVfPqs +
    qmPqMem4kb ((numPfCids + numTids) % 2 ^ 32) * QM_OTHER_PQS_PER_PF) % 2 ^ 32

/-- The memory of the queue manager in units of 4 KB. -/
def qmTotal (hw : IltHw) (req : IltReq) : ℕ :=
  let iltPfPqs := Word.sub 16 req.numPqs req.numVfPqs
  let numVfPqs := if req.vfRdma then Word.sub 16 hw.rescNumPq iltPfPqs else hw.vfCount % 2 ^ 16
  let iids := qedCxtQmIids hw req
  qedQmPfMemSize iids.1 iids.2.1 iids.2.2 iltPfPqs numVfPqs

def SRC_MIN_NUM_ELEMS : ℕ := 256

def SRC_ENT_SIZE : ℕ := 64

/-- `roundup_pow_of_two` of a number above 1. -/
def roundupPowOfTwo (n : ℕ) : ℕ := 2 ^ (Nat.log2 (n - 1) + 1)

def qedCxtSrcElements (hw : IltHw) (req : IltReq) : ℕ :=
  let iids := qedCxtSrcIids hw req
  let elemNum := (iids.1 + iids.2 * hw.vfCount) % 2 ^ 32
  if elemNum = 0 then 0 else roundupPowOfTwo (max elemNum SRC_MIN_NUM_ELEMS) % 2 ^ 32

def qedCxtGetTotalSrqCount (hw : IltHw) (req : IltReq) : ℕ :=
  (req.srqCount + hw.vfCount * req.vfsSrqCount + req.xrcSrqCount) % 2 ^ 32

/-- `qed_cxt_tid_seg_info`: the segment of the first protocol that has tasks in it. -/
def qedCxtTidSegInfo (req : IltReq) (seg : ℕ) : Option TidSeg :=
  ((range MAX_CONN_TYPES).map fun type => req.tidSeg type seg).find? fun s => s.count != 0

/-! ## Blocks and clients -/

def iltPageInBytes (hwPSize : ℕ) : ℕ := 2 ^ (hwPSize + 12)

def qedIltCliBlkFill (pSize : ℕ) (blk : IltCliBlk) (startLine totalSize elemSize : ℕ) : IltCliBlk :=
  if blk.totalSize ≠ 0 then blk
  else
    { blk with
      totalSize := totalSize
      realSizeInPage := if elemSize ≠ 0 then iltPageInBytes pSize / elemSize * elemSize else 0
      startLine := startLine }

/-- `qed_ilt_cli_adv_line`: the client and the next line. -/
def qedIltCliAdvLine (blk : IltCliBlk) (s : IltClientCfg × ℕ) : IltClientCfg × ℕ :=
  if blk.totalSize = 0 ∨ blk.realSizeInPage = 0 then s
  else
    let line := (s.2 + divRoundUp blk.totalSize blk.realSizeInPage) % 2 ^ 32
    ({ s.1 with
        first := if s.1.active then s.1.first else s.2
        active := true
        last := Word.sub 32 line 1 }, line)

def qedCxtSetCli (cli : IltClientCfg) : IltClientCfg :=
  { cli with active := false, first := 0, last := 0 }

def qedCxtSetBlk (blk : IltCliBlk) : IltCliBlk := { blk with totalSize := 0 }

namespace IltClientCfg

def fillPf (cli : IltClientCfg) (j startLine totalSize elemSize : ℕ) : IltClientCfg :=
  { cli with
    pfBlks := update cli.pfBlks j
      (qedIltCliBlkFill cli.pSize (qedCxtSetBlk (cli.pfBlks j)) startLine totalSize elemSize) }

def fillVf (cli : IltClientCfg) (j startLine totalSize elemSize : ℕ) : IltClientCfg :=
  { cli with
    vfBlks := update cli.vfBlks j
      (qedIltCliBlkFill cli.pSize (qedCxtSetBlk (cli.vfBlks j)) startLine totalSize elemSize) }

end IltClientCfg

/-- A block of the PF is filled from the current line on, which goes behind it. -/
def placePf (j totalSize elemSize : ℕ) (s : IltClientCfg × ℕ) : IltClientCfg × ℕ :=
  let cli := s.1.fillPf j s.2 totalSize elemSize
  qedIltCliAdvLine (cli.pfBlks j) (cli, s.2)

def placeVf (j totalSize elemSize : ℕ) (s : IltClientCfg × ℕ) : IltClientCfg × ℕ :=
  let cli := s.1.fillVf j s.2 totalSize elemSize
  qedIltCliAdvLine (cli.vfBlks j) (cli, s.2)

/-- The current line goes behind a block of another VF. -/
def advVf (j : ℕ) (s : IltClientCfg × ℕ) : IltClientCfg × ℕ := qedIltCliAdvLine (s.1.vfBlks j) s

def setPfTotal (start : IltClientCfg → ℕ) (s : IltClientCfg × ℕ) : IltClientCfg × ℕ :=
  ({ s.1 with pfTotalLines := Word.sub 32 s.2 (start s.1) }, s.2)

def setVfTotal (start : IltClientCfg → ℕ) (s : IltClientCfg × ℕ) : IltClientCfg × ℕ :=
  ({ s.1 with vfTotalLines := Word.sub 32 s.2 (start s.1) }, s.2)

/-- `qed_ilt_get_dynamic_line_range`, for the `CDUC` client: lines of RoCE connections are allocated
when they are needed. -/
def qedIltGetDynamicLineRange (hw : IltHw) (pSize count : ℕ) (blk : IltCliBlk) : IltCliBlk :=
  { blk with
    dynamicLineOffset := 0
    dynamicLineCnt := count / (iltPageInBytes pSize / hw.connCxtSize) }

/-! ## The computation -/

/-- `CDUC`: the contexts of connections. -/
def cducCompute (hw : IltHw) (req : IltReq) (cli : IltClientCfg) (line : ℕ) : IltClientCfg × ℕ :=
  let iids := qedCxtCduIids req
  let s :=
    placePf CDUC_BLK (iids.1 * hw.connCxtSize % 2 ^ 32) hw.connCxtSize (qedCxtSetCli cli, line)
  let s := setPfTotal (fun c => (c.pfBlks CDUC_BLK).startLine) s
  let s := placeVf CDUC_BLK (iids.2 * hw.connCxtSize % 2 ^ 32) hw.connCxtSize s
  let s := setVfTotal (fun c => (c.vfBlks CDUC_BLK).startLine) s
  let s := (advVf CDUC_BLK)^[hw.vfCount - 1] s
  let roce := req.connCfg PROTOCOLID_ROCE
  ({ s.1 with
      pfBlks := update s.1.pfBlks CDUC_BLK
        (qedIltGetDynamicLineRange hw s.1.pSize roce.cidCount (s.1.pfBlks CDUC_BLK))
      vfBlks := update s.1.vfBlks CDUC_BLK
        (qedIltGetDynamicLineRange hw s.1.pSize roce.cidsPerVf (s.1.vfBlks CDUC_BLK)) }, s.2)

/-- The working memory of the tasks of a segment. -/
def cdutWorking (hw : IltHw) (req : IltReq) (s : IltClientCfg × ℕ) (i : ℕ) : IltClientCfg × ℕ :=
  match qedCxtTidSegInfo req i with
  | none => s
  | some seg =>
    placePf (CDUT_SEG_BLK i) (seg.count * hw.taskTypeSize seg.type % 2 ^ 32)
      (hw.taskTypeSize seg.type) s

/-- The forced load memory of the tasks of a segment. A segment without it gets an empty block at
the line of the working memory. -/
def cdutForcedLoad (hw : IltHw) (req : IltReq) (s : IltClientCfg × ℕ) (i : ℕ) : IltClientCfg × ℕ :=
  match qedCxtTidSegInfo req i with
  | none => s
  | some seg =>
    if seg.hasFlMem then
      placePf (CDUT_FL_SEG_BLK i NUM_TASK_PF_SEGMENTS)
        (seg.count * hw.taskTypeSize seg.type % 2 ^ 32) (hw.taskTypeSize seg.type) s
    else
      (s.1.fillPf (CDUT_FL_SEG_BLK i NUM_TASK_PF_SEGMENTS)
        (s.1.pfBlks (CDUT_SEG_BLK i)).startLine 0 0,
        s.2)

def cdutVf (hw : IltHw) (req : IltReq) (s : IltClientCfg × ℕ) : IltClientCfg × ℕ :=
  match qedCxtTidSegInfo req TASK_SEGMENT_VF with
  | none => s
  | some seg =>
    let total := seg.count * hw.taskTypeSize seg.type % 2 ^ 32
    let fl := CDUT_FL_SEG_BLK 0 NUM_TASK_VF_SEGMENTS
    let s := placeVf (CDUT_SEG_BLK 0) total (hw.taskTypeSize seg.type) s
    let s :=
      if seg.hasFlMem then placeVf fl total (hw.taskTypeSize seg.type) s
      else (s.1.fillVf fl (s.1.vfBlks (CDUT_SEG_BLK 0)).startLine 0 0, s.2)
    let s := setVfTotal (fun c => (c.first + c.pfTotalLines) % 2 ^ 32) s
    (fun s => advVf fl (advVf (CDUT_SEG_BLK 0) s))^[hw.vfCount - 1] s

/-- `CDUT`: the contexts of tasks. -/
def cdutCompute (hw : IltHw) (req : IltReq) (cli : IltClientCfg) (line : ℕ) : IltClientCfg × ℕ :=
  let s := ({ qedCxtSetCli cli with first := line }, line)
  let s := (range NUM_TASK_PF_SEGMENTS).foldl (cdutWorking hw req) s
  let s := (range NUM_TASK_PF_SEGMENTS).foldl (cdutForcedLoad hw req) s
  cdutVf hw req (setPfTotal IltClientCfg.first s)

/-- `QM`: the queue manager. -/
def qmCompute (hw : IltHw) (req : IltReq) (cli : IltClientCfg) (line : ℕ) : IltClientCfg × ℕ :=
  setPfTotal (fun c => (c.pfBlks 0).startLine)
    (placePf 0 (qmTotal hw req * 0x1000 % 2 ^ 32) QM_PQ_ELEMENT_SIZE (qedCxtSetCli cli, line))

/-- `TM`: the timers. -/
def tmCompute (hw : IltHw) (req : IltReq) (cli : IltClientCfg) (line : ℕ) : IltClientCfg × ℕ :=
  let s := (qedCxtSetCli cli, line)
  let s :=
    if tmPfTotal req ≠ 0 then
      setPfTotal (fun c => (c.pfBlks 0).startLine)
        (placePf 0 (tmPfTotal req * TM_ELEM_SIZE % 2 ^ 32) TM_ELEM_SIZE s)
    else s
  if tmVfTotal req ≠ 0 then
    (advVf 0)^[hw.vfCount - 1]
      (setVfTotal (fun c => (c.vfBlks 0).startLine)
        (placeVf 0 (tmVfTotal req * TM_ELEM_SIZE % 2 ^ 32) TM_ELEM_SIZE s))
  else s

/-- `SRC`: the searcher. -/
def srcCompute (hw : IltHw) (req : IltReq) (cli : IltClientCfg) (line : ℕ) : IltClientCfg × ℕ :=
  let s := (qedCxtSetCli cli, line)
  if qedCxtSrcElements hw req ≠ 0 then
    setPfTotal (fun c => (c.pfBlks 0).startLine)
      (placePf 0 (qedCxtSrcElements hw req * SRC_ENT_SIZE % 2 ^ 32) SRC_ENT_SIZE s)
  else s

/-- `TSDM`: the contexts of shared receive queues. Without any, the client is left as it was. -/
def tsdmCompute (hw : IltHw) (req : IltReq) (cli : IltClientCfg) (line : ℕ) : IltClientCfg × ℕ :=
  if qedCxtGetTotalSrqCount hw req ≠ 0 then
    setPfTotal (fun c => (c.pfBlks SRQ_BLK).startLine)
      (placePf SRQ_BLK (qedCxtGetTotalSrqCount hw req * hw.srqCxtSize % 2 ^ 32) hw.srqCxtSize
        (qedCxtSetCli cli, line))
  else (cli, line)

/-- `eocre_ilt_blk_reset`, for one client. -/
def eocreIltBlkReset (cli : IltClientCfg) : IltClientCfg :=
  { cli with
    pfBlks := fun j => if j < ILT_CLI_PF_BLOCKS then qedCxtSetBlk (cli.pfBlks j) else cli.pfBlks j
    vfBlks := fun j => if j < ILT_CLI_VF_BLOCKS then qedCxtSetBlk (cli.vfBlks j) else cli.vfBlks j }

/-- The clients after `qed_cxt_cfg_ilt_compute`, `line_count`, and whether it returns 0. -/
structure IltLayout where
  clients : IltCli → IltClientCfg
  lineCount : ℕ
  ok : Bool

def qedCxtCfgIltCompute (hw : IltHw) (req : IltReq) (clients : IltCli → IltClientCfg) : IltLayout :=
  let c := fun i => eocreIltBlkReset (clients i)
  let cduc := cducCompute hw req (c .cduc) hw.pfStartLine
  let cdut := cdutCompute hw req (c .cdut) cduc.2
  let qm := qmCompute hw req (c .qm) cdut.2
  let tm := tmCompute hw req (c .tm) qm.2
  let src := srcCompute hw req (c .src) tm.2
  let tsdm := tsdmCompute hw req (c .tsdm) src.2
  { clients := fun
      | .cduc => cduc.1
      | .cdut => cdut.1
      | .qm => qm.1
      | .tm => tm.1
      | .src => src.1
      | .tsdm => tsdm.1
      | .rgfs => c .rgfs
      | .tgfs => c .tgfs
    lineCount := Word.sub 32 tsdm.2 hw.pfStartLine
    ok := decide (Word.sub 32 tsdm.2 hw.pfStartLine ≤ hw.rescNum) }

def IltHw.freshClients (hw : IltHw) (_ : IltCli) : IltClientCfg :=
  ⟨false, 0, 0, hw.iltPageSize, fun _ => ⟨0, 0, 0, 0, 0⟩, 0, fun _ => ⟨0, 0, 0, 0, 0⟩, 0⟩

/-! ## The shadow table -/

def qedCxtIltShadowSize (clients : IltCli → IltClientCfg) : ℕ :=
  ((IltCli.all.filter fun i => (clients i).active).map fun i =>
    Word.sub 32 (clients i).last (clients i).first + 1).sum % 2 ^ 32

/-- An entry of the shadow table that is written: its index and the size of its page. -/
structure ShadowWrite where
  line : ℕ
  size : ℕ
  deriving DecidableEq, Repr

/-- The loop of `qed_ilt_blk_alloc`. The turn that skips lines is taken together with the next one:
it comes to another line, and `lines` is still not 0. -/
def iltBlkAllocLoop (real linesToSkip firstSkipped : ℕ) : ℕ → ℕ → ℕ → List ShadowWrite
  | 0, _, _ => []
  | lines + 1, line, szLeft =>
    let line :=
      if linesToSkip ≠ 0 ∧ line = firstSkipped then (line + linesToSkip) % 2 ^ 32 else line
    let size := min szLeft real
    ⟨line, size⟩ ::
      iltBlkAllocLoop real linesToSkip firstSkipped lines ((line + 1) % 2 ^ 32) (szLeft - size)

/-- The entries that `qed_ilt_blk_alloc` writes, as long as memory is there. -/
def qedIltBlkAlloc (hw : IltHw) (rdma : Bool) (i : IltCli) (blk : IltCliBlk) (startLineOffset : ℕ) :
    List ShadowWrite :=
  if rdma ∧ (i = .cdut ∨ i = .tsdm) then []
  else if blk.totalSize = 0 then []
  else
    let line := Word.sub 32 ((blk.startLine + startLineOffset) % 2 ^ 32) hw.pfStartLine
    iltBlkAllocLoop blk.realSizeInPage blk.dynamicLineCnt ((line + blk.dynamicLineOffset) % 2 ^ 32)
      (Word.sub 32 (divRoundUp blk.totalSize blk.realSizeInPage) blk.dynamicLineCnt)
        line blk.totalSize

/-- The entries of a client: blocks of the PF, then for each VF those of the VFs. -/
def clientWrites (hw : IltHw) (rdma : Bool) (i : IltCli) (cli : IltClientCfg) : List ShadowWrite :=
  ((range ILT_CLI_PF_BLOCKS).flatMap fun j => qedIltBlkAlloc hw rdma i (cli.pfBlks j) 0) ++
    (range hw.vfCount).flatMap fun k =>
      (range ILT_CLI_VF_BLOCKS).flatMap fun j =>
        qedIltBlkAlloc hw rdma i (cli.vfBlks j) (cli.vfTotalLines * k % 2 ^ 32)

/-- The entries that `qed_ilt_shadow_alloc` writes, if the first `mem` pages can be allocated: it
ends with the first page that cannot. -/
def qedIltShadowAlloc (hw : IltHw) (rdma : Bool) (clients : IltCli → IltClientCfg) (mem : ℕ) :
    List ShadowWrite :=
  ((IltCli.all.filter fun i => (clients i).active).flatMap fun i =>
    clientWrites hw rdma i (clients i)).take mem

end FastLinQ.Qed
