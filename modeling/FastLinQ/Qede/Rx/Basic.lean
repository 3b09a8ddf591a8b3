import FastLinQ.Foundations.Shares
import FastLinQ.Qede.Tx.Basic

/-!
# The receive queue of `qede`

A receive queue posts segments of pages to the device. A filled segment is given to the network
stack as part of a socket buffer, and the next segment of the page is posted; after the last one
another page is needed, and the old one is put into a pool, to be used again when nobody else has a
reference to it. While completions are processed a page is replaced at once only if the ring has
come down to a threshold; otherwise `filled_buffers` is lowered and the ring is filled again at the
end of the run. The pages that an XDP program sends back are on the XDP transmit ring until the
device has sent them.

What is outside of the driver is an argument: the answers of the page and the socket buffer
allocator, the result of the XDP program, and the times at which the stack gives its buffers back,
also within a completion (`AllocEnv`). The DMA mappings are left out. `stack`, `lost`, `pending`,
`takenClean` and `hurried` are a record of what the driver does not keep.
-/

namespace FastLinQ.Qede

open FastLinQ.Qed Function Shares

/-! ## Data -/

/-- `RX_RING_SIZE - 1`. -/
def NUM_RX_BDS_MAX : ℕ := 2 ^ 13 - 1

/-- The smallest ring, of a crash kernel. -/
def NUM_RX_BDS_KDUMP_MIN : ℕ := 32

def ETH_RX_BD_THRESHOLD : ℕ := 16

def ETH_TPA_MAX_AGGS_NUM : ℕ := 64

/-- The sizes of a receive queue and of its XDP transmit queue. -/
structure RxCfg where
  pageSize : ℕ
  numRxBuffers : ℕ
  rxHeadroom : ℕ
  rxBufSize : ℕ
  rxBufSegSize : ℕ
  rxCopybreak : ℕ
  numTxBuffers : ℕ
  page_pos : 0 < pageSize
  seg_dvd : rxBufSegSize ∣ pageSize
  num_ge : NUM_RX_BDS_KDUMP_MIN ≤ numRxBuffers
  num_le : numRxBuffers ≤ NUM_RX_BDS_MAX
  numTx_pos : 0 < numTxBuffers
  numTx_le : numTxBuffers ≤ NUM_TX_BDS_MAX

structure SwRxData where
  data : Option ℕ
  pageOffset : ℕ
  deriving DecidableEq, Repr

def SwRxData.page (d : SwRxData) : ℕ := d.data.getD 0

/-- The memory of a page that a socket buffer has, with a reference to the page. -/
structure PagePart where
  page : ℕ
  lo : ℕ
  hi : ℕ
  deriving DecidableEq, Repr

/-- A received `struct sk_buff`. -/
structure RxSkb where
  parts : List PagePart
  len : ℕ
  deriving DecidableEq, Repr

def RxSkb.pages (skb : RxSkb) : List ℕ := skb.parts.map PagePart.page

def RxSkb.addFrag (skb : RxSkb) (part : PagePart) (len : ℕ) : RxSkb :=
  ⟨skb.parts ++ [part], skb.len + len⟩

inductive AggState
  | none
  | start
  | error
  deriving DecidableEq, Repr

structure AggInfo where
  state : AggState
  skb : Option RxSkb
  fragId : ℕ
  deriving DecidableEq, Repr

structure PagePool where
  size : ℕ
  cons : ℕ
  prod : ℕ
  pages : ℕ → ℕ

def PagePool.next (pool : PagePool) (i : ℕ) : ℕ := (i + 1) &&& (pool.size - 1)

structure XdpTxq where
  txPbl : Chain
  /-- The pages of `sw_tx_ring.xdp`. -/
  xdp : ℕ → ℕ
  swTxCons : ℕ
  swTxProd : ℕ

/-- The page allocator and `dma_map_page`. -/
inductive PageAnswer
  | fails
  | page (p : ℕ) (pfmemalloc : Bool)
  deriving DecidableEq, Repr

/-- What happens when a page is needed: the stack gives some of its buffers back, then the
allocator answers. -/
structure AllocEnv where
  released : List ℕ
  answer : PageAnswer

structure RxQueue where
  cfg : RxCfg
  swRxCons : ℕ
  swRxProd : ℕ
  filledBuffers : ℕ
  swRxRing : ℕ → SwRxData
  tpaInfo : ℕ → AggInfo
  pagePool : PagePool
  xdpTx : XdpTxq
  /-- `page_ref_count`. -/
  refs : ℕ → ℕ
  pfmemalloc : ℕ → Bool
  /-- What will happen when pages are needed. -/
  allocs : List AllocEnv
  /-- The socket buffers that the stack has. -/
  stack : List RxSkb
  /-- The socket buffers that nobody has a pointer to. -/
  lost : List RxSkb
  /-- The pages that the device was given to send and has not sent. -/
  pending : List ℕ
  /-- Whenever a page was taken from the pool, the stack had no part of it, and it was not to be
  sent. -/
  takenClean : Bool
  /-- How often the buffer of a consumed BD was replaced at once. -/
  hurried : ℕ

namespace RxQueue

/-! ## Pages -/

/-- A part of the page is in a buffer of the stack, or the page is to be sent. -/
def inUse (q : RxQueue) (page : ℕ) : Bool :=
  q.stack.any (fun skb => skb.pages.contains page) || q.pending.contains page

def qedeGetPageFromPool (q : RxQueue) : Option (ℕ × RxQueue) :=
  let pool := q.pagePool
  let page := pool.pages pool.cons
  if pool.cons = pool.prod then none
  else if q.refs page ≠ 1 then none
  else some (page,
    { q with
      pagePool := { pool with cons := pool.next pool.cons }
      takenClean := q.takenClean && !q.inUse page })

def qedeAddPageToPool (q : RxQueue) (page : ℕ) (incRefcount : Bool) : Bool × RxQueue :=
  let pool := q.pagePool
  if pool.next pool.prod = pool.cons then (false, q)
  else if q.pfmemalloc page then (false, q)
  else (true,
    { q with
      pagePool :=
        { pool with
          pages := update pool.pages pool.prod page
          prod := pool.next pool.prod }
      refs := if incRefcount then get q.refs page else q.refs })

def pageRefInc (q : RxQueue) (page : ℕ) : RxQueue := { q with refs := get q.refs page }

def freePage (q : RxQueue) (page : ℕ) : RxQueue := { q with refs := put q.refs [page] }

/-- `dev_kfree_skb_any`. -/
def kfreeSkb (q : RxQueue) (skb : RxSkb) : RxQueue := { q with refs := put q.refs skb.pages }

def release (q : RxQueue) (i : ℕ) : RxQueue :=
  match q.stack[i]? with
  | none => q
  | some skb => { q with stack := q.stack.eraseIdx i }.kfreeSkb skb

/-- `alloc_pages` and `dma_map_page`: a page that nobody has a reference to. -/
def allocPages (q : RxQueue) : PageAnswer → Option (ℕ × RxQueue)
  | .fails => none
  | .page p pf =>
    if q.refs p = 0 then
      some (p,
        { q with
          refs := update q.refs p 1
          pfmemalloc := update q.pfmemalloc p pf })
    else none

/-! ## Buffers -/

def currCons (q : RxQueue) : SwRxData := q.swRxRing (q.swRxCons &&& NUM_RX_BDS_MAX)

/-- Store a buffer at `sw_rx_prod`. -/
def post (q : RxQueue) (d : SwRxData) : RxQueue :=
  { q with
    swRxRing := update q.swRxRing (q.swRxProd &&& NUM_RX_BDS_MAX) d
    swRxProd := (q.swRxProd + 1) % 2 ^ 16 }

/-- The end of `qede_alloc_rx_buffer`. -/
def setPage (q : RxQueue) (page : ℕ) : RxQueue :=
  { q.post ⟨some page, 0⟩ with filledBuffers := (q.filledBuffers + 1) % 2 ^ 16 }

/-- `qede_alloc_rx_buffer` without the lazy case. -/
def allocNow (q : RxQueue) : Bool × RxQueue :=
  let env := q.allocs.headD ⟨[], .fails⟩
  let q := env.released.foldl release { q with allocs := q.allocs.tail }
  match q.qedeGetPageFromPool with
  | some (page, q) => (true, q.setPage page)
  | none =>
    match q.allocPages env.answer with
    | some (page, q) => (true, q.setPage page)
    | none => (false, q)

def hurry (q : RxQueue) (replaced : Bool) : RxQueue :=
  { q with hurried := q.hurried + replaced.toNat }

/-- `qede_alloc_rx_buffer`; the result says whether it succeeds. -/
def qedeAllocRxBuffer (q : RxQueue) (allowLazy : Bool) : Bool × RxQueue :=
  if allowLazy = true ∧ ETH_RX_BD_THRESHOLD < q.filledBuffers then
    (true, { q with filledBuffers := q.filledBuffers - 1 })
  else (q.allocNow.1, q.allocNow.2.hurry (allowLazy && q.allocNow.1))

def qedeRxBdRingConsume (q : RxQueue) : RxQueue := { q with swRxCons := (q.swRxCons + 1) % 2 ^ 16 }

def setCurrCons (q : RxQueue) (d : SwRxData) : RxQueue :=
  { q with swRxRing := update q.swRxRing (q.swRxCons &&& NUM_RX_BDS_MAX) d }

/-- `qede_reuse_page` of the slot at `sw_rx_cons`. -/
def qedeReusePage (q : RxQueue) : RxQueue :=
  (q.post q.currCons).setCurrCons { q.currCons with data := none }

def qedeRecycleRxBdRing (q : RxQueue) (count : ℕ) : RxQueue :=
  (fun q => q.qedeReusePage.qedeRxBdRingConsume)^[count] q

/-- `qede_realloc_rx_buffer` of the slot at `sw_rx_cons`. -/
def qedeReallocRxBuffer (q : RxQueue) : Bool × RxQueue :=
  let bd := q.currCons
  -- move to the next segment in the page
  let q := q.setCurrCons { bd with pageOffset := bd.pageOffset + q.cfg.rxBufSegSize }
  if bd.pageOffset + q.cfg.rxBufSegSize = q.cfg.pageSize then
    match q.qedeAllocRxBuffer true with
    | (false, q) => (false, q.setCurrCons bd)
    | (true, q) => (true, (q.qedeAddPageToPool bd.page true).2)
  else (true, (q.pageRefInc bd.page).qedeReusePage)

/-- The segment of the slot at `sw_rx_cons`. -/
def currPart (q : RxQueue) : PagePart :=
  ⟨q.currCons.page, q.currCons.pageOffset, q.currCons.pageOffset + q.cfg.rxBufSegSize⟩

/-! ## Aggregations -/

def setAgg (q : RxQueue) (a : ℕ) (info : AggInfo) : RxQueue :=
  { q with tpaInfo := update q.tpaInfo a info }

/-- `qede_fill_frag_skb`. The fragment is added to the socket buffer before the slot is
renewed. -/
def qedeFillFragSkb (a : ℕ) (q : RxQueue) (lenOnBd : ℕ) : RxQueue :=
  let info := q.tpaInfo a
  if info.state ≠ .start then
    (q.setAgg a { info with state := .error }).qedeRecycleRxBdRing 1
  else
    let part := q.currPart
    let fragId := (info.fragId + 1) % 2 ^ 8
    match q.qedeReallocRxBuffer with
    | (false, q) =>
      let skb := info.skb.map fun skb => { skb with parts := skb.parts ++ [part] }
      ((q.pageRefInc part.page).setAgg a ⟨.error, skb, fragId⟩).qedeRecycleRxBdRing 1
    | (true, q) =>
      q.qedeRxBdRingConsume.setAgg a ⟨.start, info.skb.map (·.addFrag part lenOnBd), fragId⟩

/-- `qede_tpa_rx_build_skb`; `skbOk` is the answer of `build_skb`. -/
def qedeTpaRxBuildSkb (q : RxQueue) (len : ℕ) (skbOk : Bool) : Option RxSkb × RxQueue :=
  let bd := q.currCons
  let part := q.currPart
  if skbOk = false then (none, q)
  else
    let q := q.setCurrCons { bd with pageOffset := bd.pageOffset + q.cfg.rxBufSegSize }
    if bd.pageOffset + q.cfg.rxBufSegSize = q.cfg.pageSize then
      match q.qedeAllocRxBuffer true with
      | (false, q) => (none, ((q.setCurrCons bd).pageRefInc bd.page).kfreeSkb ⟨[part], len⟩)
      | (true, q) =>
        let r := q.qedeAddPageToPool bd.page true
        let q := if r.1 then r.2.setCurrCons { bd with pageOffset := 0 } else r.2
        (some ⟨[part], len⟩, q.qedeRxBdRingConsume)
    else
      (some ⟨[part], len⟩, (q.pageRefInc bd.page).qedeReusePage.qedeRxBdRingConsume)

/-- `qede_tpa_start`, with the first two entries of `bw_ext_bd_len_list`. -/
def qedeTpaStart (q : RxQueue) (a len ext₀ ext₁ : ℕ) (skbOk : Bool) : RxQueue :=
  let info := q.tpaInfo a
  if info.state ≠ .none ∨ ext₁ ≠ 0 then
    ({ q with lost := q.lost ++ info.skb.toList }.setAgg a
      { info with state := .error, skb := none }).qedeRecycleRxBdRing 1
  else
    match q.qedeTpaRxBuildSkb len skbOk with
    | (none, q) => (q.qedeRecycleRxBdRing 1).setAgg a { info with state := .error, skb := none }
    | (some skb, q) =>
      let q := q.setAgg a ⟨.start, some skb, 0⟩
      if ext₀ ≠ 0 then qedeFillFragSkb a q ext₀ else q

/-- The entries of `len_list` up to the first zero. -/
def lens (lenList : List ℕ) : List ℕ := lenList.takeWhile (· ≠ 0)

def qedeTpaCont (q : RxQueue) (a : ℕ) (lenList : List ℕ) : RxQueue :=
  let q := (lens lenList).foldl (qedeFillFragSkb a) q
  if 1 < (lens lenList).length then q.setAgg a { q.tpaInfo a with state := .error } else q

def qedeTpaEnd (q : RxQueue) (a : ℕ) (lenList : List ℕ) (numOfBds totalPacketLen : ℕ) : RxQueue :=
  let q := (lens lenList).foldl (qedeFillFragSkb a) q
  let info := q.tpaInfo a
  let q := q.setAgg a { info with state := .none, skb := none }
  if 1 < (lens lenList).length ∨ info.state ≠ .start ∨ numOfBds ≠ info.fragId + 1 ∨
      (info.skb.map RxSkb.len).getD 0 ≠ totalPacketLen then
    info.skb.toList.foldl kfreeSkb q
  else { q with stack := q.stack ++ info.skb.toList }

/-! ## Regular packets -/

/-- `qede_rx_build_skb`; `skbOk` is the answer of the socket buffer allocator. -/
def qedeRxBuildSkb (q : RxQueue) (len pad : ℕ) (skbOk : Bool) : Option RxSkb × RxQueue :=
  if skbOk = false then (none, q)
  else if len + pad ≤ q.cfg.rxCopybreak then
    (some ⟨[], len⟩, q.qedeReusePage.qedeRxBdRingConsume)
  else
    let part := q.currPart
    match q.qedeReallocRxBuffer with
    | (false, q) => (none, (q.pageRefInc part.page).kfreeSkb ⟨[part], len⟩)
    | (true, q) => (some ⟨[part], len⟩, q.qedeRxBdRingConsume)

/-- `qede_rx_build_jumbo`: the number of BDs that are left, the socket buffer and the queue. -/
def qedeRxBuildJumbo : ℕ → ℕ → RxSkb → RxQueue → ℕ × RxSkb × RxQueue
  | 0, _, skb, q => (0, skb, q)
  | numFrags + 1, pktLen, skb, q =>
    let curSize := if q.cfg.rxBufSize < pktLen then q.cfg.rxBufSize else pktLen
    if curSize = 0 then (numFrags + 1, skb, q)
    else
      match q.qedeAllocRxBuffer true with
      | (false, q) => (numFrags + 1, skb, q)
      | (true, q) =>
        let page := q.currCons.page
        let part := ⟨page, q.cfg.rxHeadroom, q.cfg.rxHeadroom + curSize⟩
        qedeRxBuildJumbo numFrags (pktLen - curSize) (skb.addFrag part curSize)
          (q.qedeRxBdRingConsume.qedeAddPageToPool page true).2

/-- The end of `qede_rx_process_cqe`. -/
def buildPacket (q : RxQueue) (bdNum len pktLen pad : ℕ) (skbOk : Bool) : RxQueue :=
  match q.qedeRxBuildSkb len pad skbOk with
  | (none, q) => q.qedeRecycleRxBdRing bdNum
  | (some skb, q) =>
    if 1 < bdNum then
      match qedeRxBuildJumbo (bdNum - 1) (Word.sub 16 pktLen len) skb q with
      | (0, skb, q) => { q with stack := q.stack ++ [skb] }
      | (unmappedFrags + 1, skb, q) => (q.qedeRecycleRxBdRing (unmappedFrags + 1)).kfreeSkb skb
    else { q with stack := q.stack ++ [skb] }

/-! ## XDP -/

/-- `qede_xdp_xmit`; the result says whether the packet is on the ring. -/
def qedeXdpXmit (q : RxQueue) (page : ℕ) : Bool × RxQueue :=
  let t := q.xdpTx
  if qedChainGetElemLeft t.txPbl = 0 then (false, q)
  else (true,
    { q with
      xdpTx :=
        { t with
          txPbl := (qedChainProduce t.txPbl).2
          xdp := update t.xdp t.swTxProd page
          swTxProd := (t.swTxProd + 1) % q.cfg.numTxBuffers }
      pending := q.pending ++ [page] })

/-- Put a page into the pool, or free it if that is not possible. -/
def recyclePage (q : RxQueue) (page : ℕ) : RxQueue :=
  match q.qedeAddPageToPool page false with
  | (true, q) => q
  | (false, q) => q.freePage page

def xdpTake (q : RxQueue) : RxQueue :=
  { q with
    xdpTx :=
      { q.xdpTx with
        txPbl := (qedChainConsume q.xdpTx.txPbl).2
        swTxCons := (q.xdpTx.swTxCons + 1) % q.cfg.numTxBuffers }
    pending := q.pending.tail }

/-- A turn of `qede_xdp_tx_int`, after the device has sent the oldest packet. -/
def qedeXdpTxInt (q : RxQueue) : RxQueue := q.xdpTake.recyclePage (q.xdpTx.xdp q.xdpTx.swTxCons)

inductive XdpAction
  | pass
  | tx
  | aborted
  | drop
  | other
  deriving DecidableEq, Repr

structure XdpRun where
  act : XdpAction
  dataOffset : ℕ
  len : ℕ

/-- `qede_rx_xdp` for a packet that is not passed on. -/
def qedeRxXdp (q : RxQueue) (bdNum : ℕ) : XdpAction → RxQueue
  | .pass => q
  | .tx =>
    match q.qedeAllocRxBuffer true with
    | (false, q) => q.qedeRecycleRxBdRing 1
    | (true, q) =>
      let page := q.currCons.page
      match q.qedeXdpXmit page with
      | (true, q) => q.qedeRxBdRingConsume
      | (false, q) => (q.recyclePage page).qedeRxBdRingConsume
  | .aborted | .drop | .other => q.qedeRecycleRxBdRing bdNum

/-! ## Completions -/

/-- A completion, as far as the driver looks at it. -/
inductive RxCqe
  | slowPath
  | regular (bdNum lenOnFirstBd pktLen placementOffset : ℕ)
  | tpaStart (aggIndex lenOnFirstBd extBdLen₀ extBdLen₁ : ℕ)
  | tpaCont (aggIndex : ℕ) (lenList : List ℕ)
  | tpaEnd (aggIndex : ℕ) (lenList : List ℕ) (numOfBds totalPacketLen : ℕ)

/-- What happens outside while a completion is processed: the result of the XDP program, if there is
one, the answer of the socket buffer allocator, and what happens when pages are needed. -/
structure CqeEnv where
  xdp : Option XdpRun
  skbOk : Bool
  allocs : List AllocEnv

def qedeRxProcessCqe (q : RxQueue) (cqe : RxCqe) (env : CqeEnv) : RxQueue :=
  let q := { q with allocs := env.allocs }
  match cqe with
  | .slowPath => q
  | .regular bdNum len pktLen placementOffset =>
    match env.xdp with
    | none => q.buildPacket bdNum len pktLen (placementOffset + q.cfg.rxHeadroom) env.skbOk
    | some run =>
      if run.act = .pass then q.buildPacket bdNum run.len pktLen run.dataOffset env.skbOk
      else q.qedeRxXdp bdNum run.act
  | .tpaStart a len ext₀ ext₁ => q.qedeTpaStart a len ext₀ ext₁ env.skbOk
  | .tpaCont a lenList => q.qedeTpaCont a lenList
  | .tpaEnd a lenList numOfBds totalPacketLen => q.qedeTpaEnd a lenList numOfBds totalPacketLen

def RxCqe.bds : RxCqe → ℕ
  | .slowPath => 0
  | .regular bdNum _ _ _ => bdNum
  | .tpaStart _ _ ext₀ _ => if ext₀ = 0 then 1 else 2
  | .tpaCont _ lenList | .tpaEnd _ lenList _ _ => (lens lenList).length

/-- A regular packet has a BD, and the aggregations are numbered. -/
def RxCqe.Valid : RxCqe → Prop
  | .slowPath => True
  | .regular bdNum _ _ _ => 0 < bdNum
  | .tpaStart a _ _ _ | .tpaCont a _ | .tpaEnd a _ _ _ => a < ETH_TPA_MAX_AGGS_NUM

instance RxCqe.decidableValid (c : RxCqe) : Decidable c.Valid := by
  unfold RxCqe.Valid
  cases c <;> infer_instance

/-! ## The queue at work -/

/-- The loop that fills the ring, with the number of buffers that are missing: each turn raises
`filled_buffers`. The result says whether all pages were found. -/
def refill : ℕ → RxQueue → Bool × RxQueue
  | 0, q => (true, q)
  | n + 1, q =>
    match q.qedeAllocRxBuffer false with
    | (false, q) => (false, q)
    | (true, q) => refill n q

/-- The end of `qede_rx_int`. -/
def fill (q : RxQueue) (allocs : List AllocEnv) : Bool × RxQueue :=
  refill (Word.sub 16 q.cfg.numRxBuffers q.filledBuffers) { q with allocs := allocs }

/-- The queues before their buffers are allocated, in zeroed memory. -/
def fresh (cfg : RxCfg) (c : Chain) : RxQueue where
  cfg := cfg
  swRxCons := 0
  swRxProd := 0
  filledBuffers := 0
  swRxRing := fun _ => ⟨none, 0⟩
  tpaInfo := fun _ => ⟨.none, none, 0⟩
  pagePool := ⟨2 ^ Nat.log2 cfg.numRxBuffers, 0, 0, fun _ => 0⟩
  xdpTx := ⟨c, fun _ => 0, 0, 0⟩
  refs := fun _ => 0
  pfmemalloc := fun _ => false
  allocs := []
  stack := []
  lost := []
  pending := []
  takenClean := true
  hurried := 0

def filled : Bool × RxQueue → Option RxQueue
  | (true, q) => some q
  | (false, _) => none

/-- `qede_alloc_mem_rxq` and the `qede_alloc_mem_txq` of the XDP queue, if all memory is found. -/
def create (cfg : RxCfg) (env : DmaEnv) (allocs : List AllocEnv) : Option RxQueue :=
  (qedChainAlloc env (txChainParams cfg.numTxBuffers)).toOption.bind fun c =>
    filled ((fresh cfg c).fill allocs)

inductive Event
  | cqe (c : RxCqe) (env : CqeEnv)
  /-- The ring is filled at the end of `qede_rx_int`. -/
  | fill (allocs : List AllocEnv)
  /-- The device has sent the oldest XDP packet, and the driver looks at it. -/
  | xdpSent
  /-- The stack gives a buffer back. -/
  | release (i : ℕ)

def step (q : RxQueue) : Event → RxQueue
  | .cqe c env => q.qedeRxProcessCqe c env
  | .fill allocs => (q.fill allocs).2
  | .xdpSent => q.qedeXdpTxInt
  | .release i => q.release i

/-- A completion refers to posted BDs, and the device sends what it was given. -/
def DeviceOk (q : RxQueue) : Event → Prop
  | .cqe c _ => c.Valid ∧ c.bds ≤ Word.sub 16 q.swRxProd q.swRxCons
  | .xdpSent => q.pending ≠ []
  | .fill _ | .release _ => True

instance decidableDeviceOk (q : RxQueue) (e : Event) : Decidable (q.DeviceOk e) := by
  unfold DeviceOk
  cases e <;> infer_instance

end RxQueue

end FastLinQ.Qede
