import FastLinQ.Qed.Chain.Rollback

/-!
# The transmit queue of `qede`

A packet is sent by writing buffer descriptors (BDs) onto a chain with a page table,
`qede_start_xmit`, and released when the device has reported it, `qede_free_tx_pkt`. The two
sides do not exchange a description of the packet: the sender keeps the socket buffer in a slot
of a software ring, with a flag for a split header, and the releasing side reads the mapped
addresses and lengths back from the BDs. `qede_free_failed_tx_pkt` takes a half-written packet
back.

The BD memory is a function of the element's address. Of a BD only the DMA address, the byte
count and the BD count of a first BD are kept; VLAN tags, checksum and parsing bits do not take
part. The calls of the DMA API are recorded in `TxQueue.dma`.

What is outside of the driver is an argument: whether `skb_linearize` succeeds, and the answer
to each mapping (`XmitEnv`).
-/

namespace FastLinQ.Qede

open FastLinQ.Qed

/-! ## The DMA API -/

abbrev DmaAddr := BitVec 64

/-- Whether a mapping belongs to `dma_map_single` or to `dma_map_page`. -/
inductive DmaKind
  | single
  | page
  deriving DecidableEq, Repr

structure DmaMapping where
  kind : DmaKind
  addr : DmaAddr
  len : ℕ
  deriving DecidableEq, Repr

inductive DmaOp
  | map (m : DmaMapping)
  | unmap (m : DmaMapping)
  deriving DecidableEq, Repr

def DmaOp.mapped? : DmaOp → Option DmaMapping
  | .map m => some m
  | .unmap _ => none

def DmaOp.unmapped? : DmaOp → Option DmaMapping
  | .map _ => none
  | .unmap m => some m

/-! ## Socket buffers -/

/-- `struct sk_buff`, as far as the transmit path looks at it. -/
structure Skb where
  /-- `skb_headlen`. -/
  headlen : ℕ
  /-- `skb_frag_size` of every fragment. -/
  frags : List ℕ
  /-- `ip_summed == CHECKSUM_PARTIAL`. -/
  checksumPartial : Bool
  /-- IPv6 with a next header of `NEXTHDR_IPV6`. -/
  nexthdrIpv6 : Bool
  encapsulation : Bool
  /-- `skb_is_gso`. -/
  gso : Bool
  /-- From `skb->data` to the end of the TCP header. -/
  tcpEnd : ℕ
  /-- From `skb->data` to the end of the inner TCP header. -/
  innerTcpEnd : ℕ
  deriving DecidableEq, Repr

def Skb.len (skb : Skb) : ℕ := skb.headlen + skb.frags.sum

def Skb.nrFrags (skb : Skb) : ℕ := skb.frags.length

/-- The buffer after a successful `skb_linearize`. -/
def Skb.linearized (skb : Skb) : Skb := { skb with headlen := skb.len, frags := [] }

/-- The bits of the transmit type that the BDs depend on. -/
structure XmitType where
  lso : Bool
  enc : Bool
  ipv6Ext : Bool
  deriving DecidableEq, Repr

def qedeXmitType (skb : Skb) : XmitType :=
  if skb.checksumPartial = false then ⟨false, false, false⟩
  else ⟨skb.gso, skb.encapsulation, skb.nexthdrIpv6⟩

def qedeGetSkbHlen (skb : Skb) (isEncapPkt : Bool) : ℕ :=
  (if isEncapPkt then skb.innerTcpEnd else skb.tcpEnd) % 2 ^ 16

def ETH_TX_MAX_BDS_PER_NON_LSO_PACKET : ℕ := 18

def ETH_TX_MAX_NON_LSO_PKT_LEN : ℕ := 9700 - (4 + 4 + 12 + 8)

def qedePktReqLin (skb : Skb) (t : XmitType) : Bool :=
  let allowedFrags := ETH_TX_MAX_BDS_PER_NON_LSO_PACKET - 1
  let allowedFrags :=
    if t.lso ∧ qedeGetSkbHlen skb t.enc < skb.headlen then allowedFrags - 1 else allowedFrags
  decide (allowedFrags < skb.nrFrags)

/-! ## The queue -/

structure TxBd where
  addr : DmaAddr
  nbytes : ℕ
  /-- `data.nbds` of a first BD. -/
  nbds : ℕ
  deriving DecidableEq, Repr

def TxBd.zero : TxBd := ⟨0, 0, 0⟩

def TxBd.setUnmapAddrLen (b : TxBd) (addr : DmaAddr) (len : ℕ) : TxBd :=
  { b with addr := addr, nbytes := len % 2 ^ 16 }

structure SwTxBd where
  skb : Option Skb
  /-- `QEDE_TSO_SPLIT_BD`. -/
  tsoSplitBd : Bool
  deriving DecidableEq, Repr

def SwTxBd.empty : SwTxBd := ⟨none, false⟩

/-- `struct qede_tx_queue`. -/
@[ext]
structure TxQueue where
  txPbl : Chain
  /-- The memory of the chain's pages. -/
  bds : ℕ → TxBd
  /-- `sw_tx_ring.skbs`. -/
  skbs : ℕ → SwTxBd
  swTxCons : ℕ
  swTxProd : ℕ
  numTxBuffers : ℕ
  /-- `tx_db.data.bd_prod`. -/
  bdProd : ℕ
  /-- The calls of the DMA API so far. -/
  dma : List DmaOp

/-- `NUM_TX_BDS_MAX`, the largest ring that can be asked for. -/
def NUM_TX_BDS_MAX : ℕ := 2 ^ 13 - 1

/-- The chain `qede_alloc_mem_txq` asks for: `sizeof(union eth_tx_bd_types)` is 16. -/
def txChainParams (numTxBuffers : ℕ) : ChainParams :=
  qedChainParamsInit .toConsumeProduce .pbl .u16 numTxBuffers 16

/-- A queue whose BD pages hold `mem`, with an empty software ring. -/
def TxQueue.fresh (mem : ℕ → TxBd) (numTxBuffers : ℕ) (c : Chain) : TxQueue :=
  { txPbl := c, bds := mem, skbs := fun _ => .empty, swTxCons := 0, swTxProd := 0,
    numTxBuffers := numTxBuffers, bdProd := 0, dma := [] }

/-- `qede_alloc_mem_txq`, after the software ring was found. -/
def qedeAllocMemTxq (env : DmaEnv) (mem : ℕ → TxBd) (numTxBuffers : ℕ) : Except AllocErr TxQueue :=
  (qedChainAlloc env (txChainParams numTxBuffers)).map (TxQueue.fresh mem numTxBuffers)

def TxQueue.setChain (q : TxQueue) (c : Chain) : TxQueue := { q with txPbl := c }

def TxQueue.setBd (q : TxQueue) (bd : ℕ) (b : TxBd) : TxQueue :=
  { q with bds := Function.update q.bds bd b }

def TxQueue.setSlot (q : TxQueue) (idx : ℕ) (b : SwTxBd) : TxQueue :=
  { q with skbs := Function.update q.skbs idx b }

def TxQueue.log (q : TxQueue) (op : DmaOp) : TxQueue := { q with dma := q.dma ++ [op] }

def TxQueue.produceBd (q : TxQueue) : ℕ × TxQueue :=
  let r := qedChainProduce q.txPbl
  (r.1, (q.setChain r.2).setBd r.1 .zero)

/-! ## Taking a packet back -/

/-- `dma_unmap_page` of what a BD says. -/
def TxBd.unmapPage (b : TxBd) : DmaOp := .unmap ⟨.page, b.addr, b.nbytes⟩

/-- The loop of `qede_free_failed_tx_pkt` over `nbd` BDs. -/
def unmapProduced : ℕ → TxQueue → TxQueue
  | 0, q => q
  | nbd + 1, q =>
    let r := qedChainProduce q.txPbl
    let b := q.bds r.1
    let q := q.setChain r.2
    unmapProduced nbd (if b.nbytes ≠ 0 then q.log b.unmapPage else q)

def qedeFreeFailedTxPkt (q : TxQueue) (firstBd nbd : ℕ) (dataSplit : Bool) : TxQueue :=
  -- return prod to its position before this skb was handled
  let first := qedChainProduce (qedChainSetProd q.txPbl q.bdProd firstBd)
  let q :=
    if dataSplit then
      let split := qedChainProduce first.2
      (q.setChain split.2).log
        (.unmap ⟨.single, (q.bds first.1).addr, (q.bds first.1).nbytes + (q.bds split.1).nbytes⟩)
    else
      (q.setChain first.2).log
        (.unmap ⟨.single, (q.bds first.1).addr, (q.bds first.1).nbytes⟩)
  let q := unmapProduced (if dataSplit then nbd - 1 else nbd) q
  -- return again prod to its position before this skb was handled
  (q.setChain (qedChainSetProd q.txPbl q.bdProd first.1)).setSlot q.swTxProd .empty

/-! ## Sending a packet -/

/-- `map_frag_to_bd`, with the answer of `skb_frag_dma_map`. -/
def mapFragToBd (q : TxQueue) (size : ℕ) (mapping : Option DmaAddr) (bd : ℕ) : Option TxQueue :=
  match mapping with
  | none => none
  | some a => some ((q.setBd bd ((q.bds bd).setUnmapAddrLen a size)).log (.map ⟨.page, a, size⟩))

/-- The loop over the fragments that go into the second and third BD, from fragment `fragIdx` on:
`txDataBds` are `tx_data_bd` and the BD it moves on to. The answer to the mapping of fragment `i`
is `map (i + 1)`. On success the remaining fragments are returned. -/
def mapHeaderFrags (map : ℕ → Option DmaAddr) :
    List ℕ → ℕ → List ℕ → TxQueue → Except TxQueue (ℕ × List ℕ × TxQueue)
  | txDataBd :: txDataBds, fragIdx, size :: frags, q =>
    match mapFragToBd q size (map (fragIdx + 1)) txDataBd with
    | none => .error q
    | some q => mapHeaderFrags map txDataBds (fragIdx + 1) frags q
  | _, fragIdx, frags, q => .ok (fragIdx, frags, q)

/-- The loop that maps the last fragments, each into a BD of its own. -/
def mapLastFrags (map : ℕ → Option DmaAddr) :
    ℕ → List ℕ → ℕ → TxQueue → Except (ℕ × TxQueue) (ℕ × TxQueue)
  | _, [], nbd, q => .ok (nbd, q)
  | fragIdx, size :: frags, nbd, q =>
    let r := q.produceBd
    match mapFragToBd r.2 size (map (fragIdx + 1)) r.1 with
    | none => .error (nbd, r.2)
    | some q => mapLastFrags map (fragIdx + 1) frags ((nbd + 1) % 2 ^ 8) q

/-- Both loops over the fragments, with the number of BDs. -/
def mapFrags (map : ℕ → Option DmaAddr) (txDataBds frags : List ℕ) (nbd : ℕ) (q : TxQueue) :
    Except (ℕ × TxQueue) (ℕ × TxQueue) :=
  match mapHeaderFrags map txDataBds 0 frags q with
  | .error q => .error (nbd, q)
  | .ok (fragIdx, frags, q) => mapLastFrags map fragIdx frags nbd q

def sendPkt (firstBd nbd : ℕ) (q : TxQueue) : TxQueue :=
  { q.setBd firstBd { q.bds firstBd with nbds := nbd } with
    swTxProd := (q.swTxProd + 1) % q.numTxBuffers
    bdProd := qedChainGetProdIdx q.txPbl }

/-- The end of `qede_start_xmit`, from the fragments on. The result says whether the packet was
handed over. -/
def xmitFrags (map : ℕ → Option DmaAddr) (skb : Skb) (firstBd nbd : ℕ) (dataSplit : Bool)
    (txDataBds : List ℕ) (q : TxQueue) : Bool × TxQueue :=
  match mapFrags map txDataBds skb.frags nbd q with
  | .error (nbd, q) => (false, qedeFreeFailedTxPkt q firstBd nbd dataSplit)
  | .ok (nbd, q) => (true, sendPkt firstBd nbd q)

/-- The second BD takes the linear data behind the header. -/
def splitHeader (firstBd secondBd hlen : ℕ) (q : TxQueue) : TxQueue :=
  let first := q.bds firstBd
  let q := q.setBd secondBd ((q.bds secondBd).setUnmapAddrLen
    (first.addr + BitVec.ofNat 64 hlen) (Word.sub 16 first.nbytes hlen))
  let q := q.setSlot q.swTxProd { q.skbs q.swTxProd with tsoSplitBd := true }
  q.setBd firstBd { q.bds firstBd with nbytes := hlen }

/-- `qede_start_xmit` from the header on: `txDataBds` are the second and third BD, if there are
any. -/
def xmitHeader (map : ℕ → Option DmaAddr) (skb : Skb) (t : XmitType) (firstBd nbd : ℕ)
    (txDataBds : List ℕ) (q : TxQueue) : Bool × TxQueue :=
  if t.lso then
    let hlen := qedeGetSkbHlen skb t.enc
    match txDataBds with
    | secondBd :: thirdBds =>
      -- header and data cannot share a BD
      if hlen < skb.headlen then
        xmitFrags map skb firstBd nbd true thirdBds (splitHeader firstBd secondBd hlen q)
      else xmitFrags map skb firstBd nbd false txDataBds q
    | [] => xmitFrags map skb firstBd nbd false txDataBds q
  else if ETH_TX_MAX_NON_LSO_PKT_LEN ≤ skb.len then
    (false, qedeFreeFailedTxPkt q firstBd 0 false)
  else xmitFrags map skb firstBd nbd false txDataBds q

/-- `qede_start_xmit` from the first BD on. -/
def xmitLinear (map : ℕ → Option DmaAddr) (skb : Skb) (t : XmitType) (q : TxQueue) :
    Bool × TxQueue :=
  let first := q.produceBd
  match map 0 with
  | none => (false, qedeFreeFailedTxPkt first.2 first.1 0 false)
  | some a =>
    let q := (first.2.setBd first.1 ((first.2.bds first.1).setUnmapAddrLen a skb.headlen)).log
      (.map ⟨.single, a, skb.headlen⟩)
    if t.lso ∨ t.ipv6Ext then
      let second := q.produceBd
      let third := second.2.produceBd
      xmitHeader map skb t first.1 3 [second.1, third.1] third.2
    else xmitHeader map skb t first.1 1 [] q

/-- `qede_start_xmit` from the slot of the software ring on. -/
def xmitSkb (map : ℕ → Option DmaAddr) (skb : Skb) (t : XmitType) (q : TxQueue) :
    Bool × TxQueue :=
  xmitLinear map skb t (q.setSlot q.swTxProd { q.skbs q.swTxProd with skb := some skb })

/-- What `qede_start_xmit` is answered from outside. -/
structure XmitEnv where
  /-- `skb_linearize` succeeds. -/
  linearize : Bool
  /-- The addresses that the linear part (0) and fragment `i` (`i + 1`) are mapped to. -/
  map : ℕ → Option DmaAddr

/-- The buffer that is sent, if `skb_linearize` does not fail. -/
def Skb.prepared (skb : Skb) (env : XmitEnv) : Option Skb :=
  if qedePktReqLin skb (qedeXmitType skb) then
    if env.linearize then some skb.linearized else none
  else some skb

def qedeStartXmit (q : TxQueue) (skb : Skb) (env : XmitEnv) : Bool × TxQueue :=
  match skb.prepared env with
  | none => (false, q)
  | some skb' => xmitSkb env.map skb' (qedeXmitType skb) q

/-! ## Releasing a packet -/

/-- The loop of `qede_free_tx_pkt` over the fragments. -/
def unmapConsumed : ℕ → TxQueue → TxQueue
  | 0, q => q
  | n + 1, q =>
    let r := qedChainConsume q.txPbl
    unmapConsumed n ((q.setChain r.2).log (q.bds r.1).unmapPage)

/-- `qede_free_tx_pkt`. The result says whether a packet was found. -/
def qedeFreeTxPkt (q : TxQueue) : Bool × TxQueue :=
  let slot := q.skbs q.swTxCons
  match slot.skb with
  | none => (false, q)
  | some skb =>
    let first := qedChainConsume q.txPbl
    let nbds := (q.bds first.1).nbds
    let q' :=
      if slot.tsoSplitBd then
        let split := qedChainConsume first.2
        (q.setChain split.2).log
          (.unmap ⟨.single, (q.bds first.1).addr, (q.bds first.1).nbytes + (q.bds split.1).nbytes⟩)
      else
        (q.setChain first.2).log
          (.unmap ⟨.single, (q.bds first.1).addr, (q.bds first.1).nbytes⟩)
    let q' := unmapConsumed skb.nrFrags q'
    let bdsConsumed := (if slot.tsoSplitBd then 2 else 1) + skb.nrFrags
    -- the BDs without data
    (true, (q'.setChain (consumeN (nbds - bdsConsumed) q'.txPbl)).setSlot q.swTxCons .empty)

/-- One turn of the loop of `qede_tx_int`. -/
def qedeTxIntPkt (q : TxQueue) : TxQueue :=
  match qedeFreeTxPkt q with
  | (false, q') => q'
  | (true, q') => { q' with swTxCons := (q'.swTxCons + 1) % q'.numTxBuffers }

end FastLinQ.Qede
