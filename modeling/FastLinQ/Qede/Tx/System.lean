import FastLinQ.Foundations.Run
import FastLinQ.Qede.Tx.Unwind

/-!
# A transmit queue at work

`TxSys` is a queue with the flow control of the network stack and a record of what was sent and
released. The stack calls `qede_start_xmit` while the queue is not stopped; the queue is stopped
when there is no room for a packet of any shape, and woken by `qede_tx_int` when there is again. A
completion is reported for a packet that was sent, in order.

`TxInv` is the state of the queue over a run. The packets in flight are a list of jobs; their BDs
stand one behind the other from the consumer to the producer, and their socket buffers in
consecutive slots of the software ring, all other slots being empty. It is kept by a call that
finds a free slot, and, if the packet has to be taken back, can put the producer back
(`TxStep.Kept`). Nothing else ensures either: the software ring has as many slots as the chain was
asked for elements, and the chain has the elements of whole pages.
-/

namespace FastLinQ.Qede

open FastLinQ.Qed Cells

/-! ## The system -/

/-- A packet that was sent: the BDs produced, the number in the first BD, the mappings made. -/
structure Sent where
  skb : Option Skb
  produced : ℕ
  nbds : ℕ
  mapped : List DmaMapping
  deriving DecidableEq, Repr

/-- A packet that was released: the BDs consumed, the mappings removed. -/
structure Released where
  skb : Option Skb
  consumed : ℕ
  unmapped : List DmaMapping
  deriving DecidableEq, Repr

def Sent.release (p : Sent) : Released := ⟨p.skb, p.nbds, p.mapped⟩

structure TxSys where
  q : TxQueue
  stopped : Bool
  sent : List Sent
  released : List Released

def TxSys.start (q : TxQueue) : TxSys := ⟨q, false, [], []⟩

inductive TxStep
  | xmit (skb : Skb) (env : XmitEnv)
  /-- The device reports a packet; `up` says that the device is open and has a carrier. -/
  | complete (up : Bool)

/-- The DMA calls since an earlier state of the queue. -/
def TxQueue.opsSince (q q' : TxQueue) : List DmaOp := q'.dma.drop q.dma.length

/-- The packet that led from `q` to `q'`. -/
def TxQueue.sentPkt (q q' : TxQueue) : Sent where
  skb := (q'.skbs q.swTxProd).skb
  produced := Word.sub 16 q'.txPbl.prod.idx q.txPbl.prod.idx
  nbds := (q'.bds (qedChainProduce q.txPbl).1).nbds
  mapped := (q.opsSince q').filterMap DmaOp.mapped?

def TxQueue.releasedPkt (q q' : TxQueue) : Released where
  skb := (q.skbs q.swTxCons).skb
  consumed := Word.sub 16 q'.txPbl.cons.idx q.txPbl.cons.idx
  unmapped := (q.opsSince q').filterMap DmaOp.unmapped?

/-- One call, in a kernel with `maxSkbFrags` fragments in a socket buffer. -/
def TxSys.step (maxSkbFrags : ℕ) (s : TxSys) : TxStep → TxSys
  | .xmit skb env =>
    let r := qedeStartXmit s.q skb env
    if r.1 then
      { s with
        q := r.2
        stopped := decide (qedChainGetElemLeft r.2.txPbl < maxSkbFrags + 1)
        sent := s.sent ++ [s.q.sentPkt r.2] }
    else { s with q := r.2 }
  | .complete up =>
    let q := qedeTxIntPkt s.q
    { s with
      q := q
      stopped := s.stopped && !(up && decide (maxSkbFrags + 1 ≤ qedChainGetElemLeft q.txPbl))
      released := s.released ++ [s.q.releasedPkt q] }

/-- The stack does not call a stopped queue, and the device reports what it was given. -/
def TxStep.Enabled (s : TxSys) : TxStep → Prop
  | .xmit _ _ => s.stopped = false
  | .complete _ => s.released.length < s.sent.length

/-- Every mapping that the call asks for succeeds. -/
def TxStep.Maps : TxStep → Prop
  | .xmit _ env => ∀ i, (env.map i).isSome
  | .complete _ => True

/-! ## What becomes of a packet -/

inductive XmitFate
  | sent
  | tooLong
  | failedLinear
  | failedFrag (j : ℕ)
  deriving DecidableEq, Repr

/-- The first fragment, from number `i` on, that cannot be mapped. -/
def firstFailure (map : ℕ → Option DmaAddr) : ℕ → List ℕ → Option ℕ
  | _, [] => none
  | i, _ :: frags => if (map (i + 1)).isNone then some i else firstFailure map (i + 1) frags

def Skb.fate (skb : Skb) (t : XmitType) (map : ℕ → Option DmaAddr) : XmitFate :=
  if (map 0).isNone then .failedLinear
  else if skb.TooLong t then .tooLong
  else
    match firstFailure map 0 skb.frags with
    | none => .sent
    | some j => .failedFrag j

/-- The most BDs that the producer is put back by. -/
def Skb.takenBack (skb : Skb) (t : XmitType) : XmitFate → ℕ
  | .sent => 0
  | .tooLong => if t.ext then 3 else 1
  | .failedLinear => 1
  | .failedFrag j => skb.rewalked t j

/-- A packet finds a free slot, and the producer can be put back if it has to be. -/
def TxStep.Kept (s : TxSys) : TxStep → Prop
  | .xmit skb env =>
    match skb.prepared env with
    | none => True
    | some skb' =>
      s.sent.length < s.released.length + s.q.numTxBuffers ∧
        s.q.txPbl.CanRollBack s.q.txPbl.prod.idx
          (skb'.takenBack (qedeXmitType skb) (skb'.fate (qedeXmitType skb) env.map))
  | .complete _ => True

/-- The lengths of a packet that is sent fit the BDs. -/
def TxStep.Fits : TxStep → Prop
  | .xmit skb env =>
    match skb.prepared env with
    | none => True
    | some skb' =>
      skb'.fate (qedeXmitType skb) env.map = .sent → skb'.Fits (qedeXmitType skb)
  | .complete _ => True

instance (s : TxSys) (a : TxStep) : Decidable (a.Enabled s) := by
  unfold TxStep.Enabled
  cases a <;> infer_instance

instance (s : TxSys) (a : TxStep) : Decidable (a.Kept s) := by
  unfold TxStep.Kept
  repeat' split
  all_goals infer_instance

instance (a : TxStep) : Decidable a.Fits := by
  unfold TxStep.Fits
  repeat' split
  all_goals infer_instance

/-- Unmapped addresses do not matter. -/
def addrOf (map : ℕ → Option DmaAddr) (j : ℕ) : DmaAddr := (map j).getD 0

/-- The packet that a call hands to the device, and its mappings. -/
def TxStep.packet : TxStep → Option (Option Skb × List DmaMapping)
  | .xmit skb env =>
    match skb.prepared env with
    | none => none
    | some skb' =>
      if skb'.fate (qedeXmitType skb) env.map = .sent then
        some (some skb', skb'.mappings (addrOf env.map))
      else none
  | .complete _ => none

theorem firstFailure_spec (map : ℕ → Option DmaAddr) (i : ℕ) (frags : List ℕ) :
    match firstFailure map i frags with
    | none => Mapped map (addrOf map) i frags
    | some j => ∃ l size rest, frags = l ++ size :: rest ∧ j = i + l.length ∧
        Mapped map (addrOf map) i l ∧ map (j + 1) = none := by
  induction frags generalizing i with
  | nil => trivial
  | cons size frags ih =>
    rw [firstFailure]
    cases hm : map (i + 1) with
    | none => exact ⟨[], size, frags, rfl, rfl, trivial, hm⟩
    | some x =>
      have hx : map (i + 1) = some (addrOf map (i + 1)) := by rw [addrOf, hm]; rfl
      have ih := ih (i + 1)
      cases hf : firstFailure map (i + 1) frags with
      | none =>
        rw [hf] at ih
        exact ⟨hx, ih⟩
      | some j =>
        rw [hf] at ih
        obtain ⟨l, s, rest, hl, hj, hmap, hnone⟩ := ih
        refine ⟨size :: l, s, rest, by rw [hl]; rfl, ?_, ⟨hx, hmap⟩, hnone⟩
        rw [List.length_cons]
        omega

/-- The fate of a packet, in terms of its mappings. -/
theorem fate_spec (skb : Skb) (t : XmitType) (map : ℕ → Option DmaAddr) :
    match skb.fate t map with
    | .failedLinear => map 0 = none
    | .tooLong => map 0 = some (addrOf map 0) ∧ skb.TooLong t
    | .sent => map 0 = some (addrOf map 0) ∧ ¬ skb.TooLong t ∧ Mapped map (addrOf map) 0 skb.frags
    | .failedFrag j => map 0 = some (addrOf map 0) ∧ ¬ skb.TooLong t ∧
        ∃ l size rest, skb.frags = l ++ size :: rest ∧ j = l.length ∧
          Mapped map (addrOf map) 0 l ∧ map (l.length + 1) = none := by
  unfold Skb.fate
  cases hm : map 0 with
  | none => rfl
  | some x =>
    have hx : map 0 = some (addrOf map 0) := by rw [addrOf, hm]; rfl
    rw [if_neg (by simp), ← hm]
    by_cases hlong : skb.TooLong t
    · rw [if_pos hlong]
      exact ⟨hx, hlong⟩
    · rw [if_neg hlong]
      have hspec := firstFailure_spec map 0 skb.frags
      cases hf : firstFailure map 0 skb.frags with
      | none =>
        rw [hf] at hspec
        exact ⟨hx, hlong, hspec⟩
      | some j =>
        rw [hf] at hspec
        obtain ⟨l, size, rest, hl, hj, hmap, hnone⟩ := hspec
        rw [Nat.zero_add] at hj
        exact ⟨hx, hlong, l, size, rest, hl, hj, hmap, by rw [← hj]; exact hnone⟩

theorem pktReqLin_eq (skb : Skb) (t : XmitType) :
    qedePktReqLin skb t = decide ((if skb.split t then 16 else 17) < skb.nrFrags) := by
  have hiff : (t.lso = true ∧ qedeGetSkbHlen skb t.enc < skb.headlen) ↔ skb.split t = true := by
    rw [Skb.split, Bool.and_eq_true, decide_eq_true_eq]
  simp only [qedePktReqLin, hiff]
  rfl

/-- After `qede_pkt_req_lin` the linear part and the fragments take at most 18 BDs. -/
theorem prepared_nrFrags {skb skb' : Skb} {env : XmitEnv} (h : skb.prepared env = some skb') :
    (if skb'.split (qedeXmitType skb) then 2 else 1) + skb'.nrFrags ≤ 18 := by
  rw [Skb.prepared] at h
  split at h
  · split at h
    · obtain rfl := Option.some.inj h
      have hnr : skb.linearized.nrFrags = 0 := rfl
      split <;> omega
    · cases h
  · rename_i hreq
    obtain rfl := Option.some.inj h
    rw [pktReqLin_eq, decide_eq_true_eq] at hreq
    split at hreq <;> rename_i hs
    · rw [if_pos hs]
      omega
    · rw [if_neg hs]
      omega

end FastLinQ.Qede
