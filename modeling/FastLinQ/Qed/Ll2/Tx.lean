import FastLinQ.Qed.Chain.Rollback

/-!
# The transmit queue of a light L2 connection

A light L2 connection sends packets of one or more buffer descriptors (BDs). Each packet is
described by one of the `qed_ll2_tx_packet` of the queue's array, which moves between
`free_descq`, `cur_send_packet` (the packet whose BDs are being filled), `sending_descq` (filled,
the firmware does not know of it yet) and `active_descq`. The firmware writes the number of BDs it
is done with into the status block, and `qed_ll2_txq_completion` takes their packets off
`active_descq`. It drops the lock of the queue for the callback of each packet, so that all other
calls may come between two of its turns; `qed_ll2_txq_flush` does the same.

A descriptor is named by its index in `descq_array`. Each section that runs under the lock is one
step of the system. What `qed_ll2_set_fragment_of_tx_packet` does before it takes the lock is a step
of its own: only the thread that prepared the current packet adds fragments to it.
-/

namespace FastLinQ.Qed

open Function

/-! ## Data -/

/-- What the driver writes into a `struct core_tx_bd`: the address, the length and, in the first BD
of a packet, the number of BDs. -/
structure CoreTxBd where
  addr : ℕ
  nbytes : ℕ
  startBd : Bool
  nbds : ℕ
  deriving DecidableEq, Repr

/-- One entry of `bds_set`. -/
structure Ll2BdSet where
  txqBd : ℕ
  txFrag : ℕ
  fragLen : ℕ
  deriving DecidableEq, Repr

structure Ll2TxPacket where
  bdUsed : ℕ
  notifyFw : Bool
  cookie : ℕ
  bdsSet : ℕ → Ll2BdSet

/-- `struct qed_ll2_tx_queue`, with the BDs behind the chain and the consumer value in the status
block. -/
structure Ll2TxQueue where
  txqChain : Chain
  bds : ℕ → CoreTxBd
  fwCons : ℕ
  activeDescq : List ℕ
  freeDescq : List ℕ
  sendingDescq : List ℕ
  descqArray : ℕ → Ll2TxPacket
  curSendPacket : Option ℕ
  curCompletingPacket : Ll2TxPacket
  curCompletingBdIdx : ℕ
  bdsIdx : ℕ
  curSendFragNum : ℕ
  bCompletingPacket : Bool

/-- The input of a connection that the transmit side reads: `tx_max_bds_per_packet`, and whether
`conn_type` is `QED_LL2_TYPE_OOO`. -/
structure Ll2Conn where
  txMaxBdsPerPacket : ℕ
  isOoo : Bool
  deriving DecidableEq, Repr

structure Ll2TxPktInfo where
  cookie : ℕ
  firstFrag : ℕ
  firstFragLen : ℕ
  numOfBds : ℕ
  deriving DecidableEq, Repr

inductive Ll2Err
  | einval
  | eio
  | eexist
  | ebusy
  deriving DecidableEq, Repr

/-- Calls that leave the transmit queue, with the lock dropped: `tx_comp_cb`, `tx_release_cb`
(cookie, first fragment, `b_last_fragment`, `b_last_packet`) and `qed_ooo_put_free_buffer`. -/
inductive Ll2Cb
  | txComp (cookie frag : ℕ) (lastFrag lastPacket : Bool)
  | txRelease (cookie frag : ℕ) (lastFrag lastPacket : Bool)
  | oooPutFree (cookie : ℕ)
  deriving DecidableEq, Repr

/-- The parameters `qed_ll2_acquire_connection_tx` gives to `qed_chain_alloc`; a `core_tx_bd` has
16 bytes. -/
def ll2TxChainParams (txNumDesc : ℕ) : ChainParams :=
  qedChainParamsInit .toConsumeProduce .pbl .u16 txNumDesc 16

/-- The transmit side of `qed_ll2_establish_connection`. -/
def qedLl2EstablishTx (q : Ll2TxQueue) : Ll2TxQueue :=
  { q with
    txqChain := qedChainReset q.txqChain
    activeDescq := []
    freeDescq := List.range q.txqChain.capacity
    sendingDescq := []
    curCompletingBdIdx := 0
    bdsIdx := 0
    bCompletingPacket := false
    curSendPacket := none
    curSendFragNum := 0 }

/-! ## Sending -/

/-- The packet at index `p` with one entry of its `bds_set` changed. -/
def Ll2TxQueue.setBdSet (q : Ll2TxQueue) (p i : ℕ) (b : Ll2BdSet) : Ll2TxQueue :=
  { q with
    descqArray := update q.descqArray p
      { q.descqArray p with bdsSet := update (q.descqArray p).bdsSet i b } }

def qedLl2PrepareTxPacketSet (q : Ll2TxQueue) (p : ℕ) (pkt : Ll2TxPktInfo) (notifyFw : Bool) :
    Ll2TxQueue :=
  let old := (q.descqArray p).bdsSet 0
  { q with
    freeDescq := q.freeDescq.erase p
    descqArray := update q.descqArray p
      { bdUsed := pkt.numOfBds
        notifyFw := notifyFw
        cookie := pkt.cookie
        bdsSet := update (q.descqArray p).bdsSet 0
          { old with txFrag := pkt.firstFrag, fragLen := pkt.firstFragLen } }
    curSendPacket := some p
    curSendFragNum := 1 }

/-- The loop of `qed_ll2_prepare_tx_packet_set_bd` over the BDs of further fragments, with the
number of turns left: each gets a BD, to be filled later. -/
def setBdFrags (p : ℕ) : ℕ → ℕ → Ll2TxQueue → Ll2TxQueue
  | 0, _, q => q
  | n + 1, fragIdx, q =>
    let bd := (qedChainProduce q.txqChain).1
    let q₁ := { q with
      txqChain := (qedChainProduce q.txqChain).2
      bds := update q.bds bd { q.bds bd with startBd := false, nbds := 0 } }
    setBdFrags p n (fragIdx + 1) (q₁.setBdSet p fragIdx ⟨bd, 0, 0⟩)

def qedLl2PrepareTxPacketSetBd (q : Ll2TxQueue) (p : ℕ) (pkt : Ll2TxPktInfo) : Ll2TxQueue :=
  let startBd := (qedChainProduce q.txqChain).1
  let q₁ := { q with
    txqChain := (qedChainProduce q.txqChain).2
    bds := update q.bds startBd ⟨pkt.firstFrag, pkt.firstFragLen, true, pkt.numOfBds⟩ }
  setBdFrags p (pkt.numOfBds - q.curSendFragNum) q.curSendFragNum q₁

/-- `qed_ll2_tx_packet_notify`. Without a current packet the code would read through a null
pointer. -/
def qedLl2TxPacketNotify (q : Ll2TxQueue) : Ll2TxQueue :=
  match q.curSendPacket with
  | none => q
  | some p =>
    if q.curSendFragNum ≠ (q.descqArray p).bdUsed then q
    else
      let q₁ := { q with
        sendingDescq := q.sendingDescq ++ [p]
        curSendPacket := none
        curSendFragNum := 0 }
      if (q.descqArray p).notifyFw = false then q₁
      else { q₁ with activeDescq := q₁.activeDescq ++ q₁.sendingDescq, sendingDescq := [] }

def qedLl2PrepareTxPacket (conn : Ll2Conn) (q : Ll2TxQueue) (pkt : Ll2TxPktInfo) (notifyFw : Bool) :
    Except Ll2Err Ll2TxQueue :=
  if conn.txMaxBdsPerPacket < pkt.numOfBds then .error .eio
  else if q.curSendPacket.isSome then .error .eexist
  else
    match q.freeDescq with
    | [] => .error .ebusy
    | p :: _ =>
      if qedChainGetElemLeft q.txqChain < pkt.numOfBds then .error .ebusy
      else
        let q₁ := qedLl2PrepareTxPacketSet q p pkt notifyFw
        .ok (qedLl2TxPacketNotify (qedLl2PrepareTxPacketSetBd q₁ p pkt))

/-- `qed_ll2_set_fragment_of_tx_packet` before it takes the lock. -/
def qedLl2SetFragmentOfTxPacket (q : Ll2TxQueue) (addr nbytes : ℕ) : Except Ll2Err Ll2TxQueue :=
  match q.curSendPacket with
  | none => .error .einval
  | some p =>
    let i := q.curSendFragNum
    if (q.descqArray p).bdUsed ≤ i then .error .einval
    else
      let bd := ((q.descqArray p).bdsSet i).txqBd
      let q₁ := { q with
        bds := update q.bds bd { q.bds bd with addr := addr, nbytes := nbytes }
        curSendFragNum := i + 1 }
      .ok (q₁.setBdSet p i ⟨bd, addr, nbytes⟩)

/-! ## Completing -/

/-- How a section of `qed_ll2_txq_completion` under the lock ends: the function returns, or the lock
is dropped for the callback with `num_bds` BDs still to complete. -/
inductive CompletionExit
  | ret (rc : Except Ll2Err Unit)
  | callback (numBds : ℕ) (cb : Ll2Cb)

/-- One turn of the loop of `qed_ll2_txq_completion` with `num_bds` BDs left, or its end. -/
def qedLl2TxqCompletionTurn (q : Ll2TxQueue) (numBds : ℕ) : Ll2TxQueue × CompletionExit :=
  if numBds = 0 then ({ q with bCompletingPacket := false }, .ret (.ok ()))
  else
    match q.activeDescq with
    | [] => (q, .ret (.error .einval))
    | p :: rest =>
      let pkt := q.descqArray p
      let q₁ := { q with
        bCompletingPacket := true
        curCompletingPacket := pkt
        activeDescq := rest }
      -- "Rest of BDs does not cover whole packet"
      if numBds < pkt.bdUsed then (q₁, .ret (.error .einval))
      else
        ({ q₁ with
            bdsIdx := (q.bdsIdx + pkt.bdUsed) % 2 ^ 16
            txqChain := consumeN pkt.bdUsed q.txqChain
            curCompletingBdIdx := 1
            freeDescq := q.freeDescq ++ [p] },
          .callback (numBds - pkt.bdUsed)
            (.txComp pkt.cookie (pkt.bdsSet 0).txFrag (1 == pkt.bdUsed) (numBds == pkt.bdUsed)))

/-- The BDs the firmware is done with, as `qed_ll2_txq_completion` reads them. -/
def Ll2TxQueue.newBds (q : Ll2TxQueue) : ℕ := Word.sub 16 q.fwCons q.bdsIdx

/-- `qed_ll2_txq_completion` up to the first time it drops the lock. -/
def qedLl2TxqCompletion (q : Ll2TxQueue) : Ll2TxQueue × CompletionExit :=
  if q.bCompletingPacket then (q, .ret (.error .ebusy))
  else qedLl2TxqCompletionTurn q q.newBds

/-- One turn of `qed_ll2_txq_flush`, with the call it makes after dropping the lock. -/
def qedLl2TxqFlushTurn (conn : Ll2Conn) (q : Ll2TxQueue) : Ll2TxQueue × Option Ll2Cb :=
  match q.activeDescq with
  | [] => (q, none)
  | p :: rest =>
    let pkt := q.descqArray p
    let q₁ := { q with activeDescq := rest, freeDescq := q.freeDescq ++ [p] }
    if conn.isOoo then (q₁, some (.oooPutFree pkt.cookie))
    else
      ({ q₁ with curCompletingPacket := pkt, curCompletingBdIdx := 1 },
        some (.txRelease pkt.cookie (pkt.bdsSet 0).txFrag (1 == pkt.bdUsed) rest.isEmpty))

/-! ## The system -/

/-- A connection in use: its transmit queue, the calls that were interrupted while they do not hold
the lock, the callbacks made so far, and the BDs of the packets that a flush took away. -/
structure Ll2TxSys where
  conn : Ll2Conn
  q : Ll2TxQueue
  /-- `num_bds` of each `qed_ll2_txq_completion` that is in its callback. -/
  completions : List ℕ
  /-- A `qed_ll2_set_fragment_of_tx_packet` that has not taken the lock yet. -/
  fragPending : Bool
  cbs : List Ll2Cb
  flushedBds : ℕ

/-- A connection right after `qed_ll2_establish_connection`. -/
def Ll2TxSys.establish (conn : Ll2Conn) (q : Ll2TxQueue) : Ll2TxSys :=
  { conn, q := qedLl2EstablishTx q, completions := [], fragPending := false, cbs := []
    flushedBds := 0 }

inductive Ll2TxStep
  /-- The firmware writes its consumer value. -/
  | fwWrite (v : ℕ)
  | prepareTxPacket (pkt : Ll2TxPktInfo) (notifyFw : Bool)
  | setFragment (addr nbytes : ℕ)
  /-- The locked part of a `set_fragment` call. -/
  | fragNotify
  | completion
  /-- The callback of one of the completions returns. -/
  | completionTurn (i : ℕ)
  | flushTurn
  deriving DecidableEq, Repr

/-- A section of a completion has ended; `rest` are the other completions in progress. -/
def Ll2TxSys.afterTurn (s : Ll2TxSys) (rest : List ℕ) (r : Ll2TxQueue × CompletionExit) :
    Ll2TxSys :=
  match r.2 with
  | .ret _ => { s with q := r.1, completions := rest }
  | .callback numBds cb =>
    { s with q := r.1, completions := rest ++ [numBds], cbs := s.cbs ++ [cb] }

def Ll2TxSys.step (s : Ll2TxSys) : Ll2TxStep → Ll2TxSys
  | .fwWrite v => { s with q := { s.q with fwCons := v % 2 ^ 16 } }
  | .prepareTxPacket pkt notifyFw =>
    match qedLl2PrepareTxPacket s.conn s.q pkt notifyFw with
    | .error _ => s
    | .ok q => { s with q }
  | .setFragment addr nbytes =>
    if s.fragPending then s
    else
      match qedLl2SetFragmentOfTxPacket s.q addr nbytes with
      | .error _ => s
      | .ok q => { s with q, fragPending := true }
  | .fragNotify =>
    if s.fragPending then { s with q := qedLl2TxPacketNotify s.q, fragPending := false } else s
  | .completion => s.afterTurn s.completions (qedLl2TxqCompletion s.q)
  | .completionTurn i =>
    match s.completions[i]? with
    | none => s
    | some numBds => s.afterTurn (s.completions.eraseIdx i) (qedLl2TxqCompletionTurn s.q numBds)
  | .flushTurn =>
    { s with
      q := (qedLl2TxqFlushTurn s.conn s.q).1
      cbs := s.cbs ++ (qedLl2TxqFlushTurn s.conn s.q).2.toList
      flushedBds := s.flushedBds +
        (s.q.activeDescq.head?.elim 0 fun p => (s.q.descqArray p).bdUsed) }

end FastLinQ.Qed
