import FastLinQ.Qed.Chain.Pbl
import FastLinQ.Qede.Tx.Basic

/-!
# The BDs of a packet

`TxQueue.put` is a queue with a half-written packet: a list of BDs at the producer, which has moved
over them. Every statement of `qede_start_xmit` changes that list, so that the function can be
followed on the list alone: a BD is produced (`put_produceBd`), one of those produced is filled
(`put_setBd`), and the two loops over the fragments append to it or fill it
(`mapHeaderFrags_append`, `mapLastFrags_append`).

A packet starts with the BDs of its linear part, two of them if the header is split off
(`linearBds`). Up to three BDs are there from the start if the packet needs a second and third
one; `room` of them are left for fragments.
-/

namespace FastLinQ.Qede

open FastLinQ.Qed Cells Function List TxQueue Nat Skb

/-- The chain of a transmit queue: pages of 256 BDs behind a page table, with 16-bit counters that
no turn of the ring exhausts. -/
structure TxRing (i : ChainInfo) (base : ℕ → ℕ) : Prop where
  ring : i.Ring base 8
  mode : i.mode = .pbl
  cnt : i.cntType = .u16
  capacity_eq : i.capacity = 256 * i.pageCnt
  capacity_lt : i.capacity < 2 ^ 16
  apart : Apart (i.elemAddr base) i.capacity

theorem TxRing.pblRing {i : ChainInfo} {base : ℕ → ℕ} (T : TxRing i base) : PblRing i base 8 where
  ring := T.ring
  mode := T.mode
  bits_lt := by decide
  slots_le := by
    rw [T.cnt]
    exact T.capacity_eq ▸ T.capacity_lt.le
  slots_lt hc := nomatch T.cnt.symm.trans hc

theorem TxRing.le_capacity {i : ChainInfo} {base : ℕ → ℕ} (T : TxRing i base) :
    256 ≤ i.capacity := by
  rw [T.capacity_eq]
  exact Nat.le_mul_of_pos_right 256 T.ring.pageCnt_pos

def TxQueue.logs (q : TxQueue) (ops : List DmaOp) : TxQueue := { q with dma := q.dma ++ ops }

theorem TxQueue.logs_logs (q : TxQueue) (l r : List DmaOp) :
    (q.logs l).logs r = q.logs (l ++ r) := by
  simp [logs, append_assoc]

theorem TxQueue.log_eq (q : TxQueue) (op : DmaOp) : q.log op = q.logs [op] := rfl

theorem TxQueue.logs_setChain (q : TxQueue) (ops : List DmaOp) (c : Chain) :
    (q.logs ops).setChain c = (q.setChain c).logs ops := rfl

theorem TxQueue.logs_nil (q : TxQueue) : q.logs [] = q := by
  simp [logs]

/-- A queue after the BDs `img` were written at the producer, which had handed out `P`
elements. -/
def TxQueue.put (q : TxQueue) (base : ℕ → ℕ) (P : ℕ) (img : List TxBd) : TxQueue :=
  { q with
    txPbl := produceN img.length q.txPbl
    bds := write (q.txPbl.elemAddr base) q.bds P img }

section Put

variable {q : TxQueue} {base : ℕ → ℕ} {P : ℕ} {img : List TxBd} {b c : TxBd}

theorem put_log (op : DmaOp) : (q.put base P img).log op = (q.logs [op]).put base P img := rfl

theorem put_setSlot (idx : ℕ) (s : SwTxBd) :
    (q.put base P img).setSlot idx s = (q.setSlot idx s).put base P img := rfl

variable (T : TxRing q.txPbl base)

include T

theorem put_bds (pre post : List TxBd) (hlen : pre.length + post.length < q.txPbl.capacity) :
    (q.put base P (pre ++ c :: post)).bds (q.txPbl.elemAddr base (P + pre.length)) = c := by
  have hle : (pre ++ c :: post).length ≤ q.txPbl.capacity := by
    rw [length_append, length_cons]
    omega
  exact (holds_append.1 (holds_write T.apart hle)).2.1

theorem put_setBd (pre post : List TxBd) (hlen : pre.length + post.length < q.txPbl.capacity) :
    (q.put base P (pre ++ c :: post)).setBd (q.txPbl.elemAddr base (P + pre.length)) b =
      q.put base P (pre ++ b :: post) := by
  have h := update_write (m := q.bds) (k := P) (b := b) (c := c) T.apart hlen
  simp [setBd, put, h]

theorem put_mapFragToBd (pre post : List TxBd)
    (hlen : pre.length + post.length < q.txPbl.capacity) (size : ℕ) (a : DmaAddr) :
    mapFragToBd (q.put base P (pre ++ .zero :: post)) size (some a)
        (q.txPbl.elemAddr base (P + pre.length)) =
      some ((q.logs [.map ⟨.page, a, size⟩]).put base P
        (pre ++ ⟨a, size % 2 ^ 16, 0⟩ :: post)) := by
  simp only [mapFragToBd, put_bds T pre post hlen, put_setBd T pre post hlen, put_log]
  rfl

variable (h : PblAt q.txPbl base q.txPbl.prod P)

include h

theorem produce_produceN (n : ℕ) :
    qedChainProduce (produceN n q.txPbl) =
      (q.txPbl.elemAddr base (P + n), produceN (n + 1) q.txPbl) := by
  have haddr := ((h.iterate T.ring T.mode n).next T.ring T.mode).1
  have hsucc : produceN (n + 1) q.txPbl = (qedChainProduce (produceN n q.txPbl)).2 := by
    unfold produceN
    rw [iterate_succ_apply']
  refine Prod.ext ?_ hsucc.symm
  rw [produceN_eq]
  exact haddr

theorem put_produceBd (img : List TxBd) :
    (q.put base P img).produceBd =
      (q.txPbl.elemAddr base (P + img.length), q.put base P (img ++ [.zero])) := by
  have hp := produce_produceN T h img.length
  simp [produceBd, put, hp, setChain, setBd, write_append, write, length_append]

end Put

/-! ## Fragments -/

/-- The BDs of the fragments from number `i` on. -/
def fragBds (a : ℕ → DmaAddr) : ℕ → List ℕ → List TxBd
  | _, [] => []
  | i, size :: frags => ⟨a (i + 1), size % 2 ^ 16, 0⟩ :: fragBds a (i + 1) frags

def fragMaps (a : ℕ → DmaAddr) : ℕ → List ℕ → List DmaMapping
  | _, [] => []
  | i, size :: frags => ⟨.page, a (i + 1), size⟩ :: fragMaps a (i + 1) frags

@[simp] theorem length_fragBds (a : ℕ → DmaAddr) (i : ℕ) (l : List ℕ) :
    (fragBds a i l).length = l.length := by
  induction l generalizing i with
  | nil => rfl
  | cons size l ih => simp [fragBds, ih]

theorem fragBds_append (a : ℕ → DmaAddr) (i : ℕ) (l r : List ℕ) :
    fragBds a i (l ++ r) = fragBds a i l ++ fragBds a (i + l.length) r := by
  induction l generalizing i with
  | nil => rfl
  | cons size l ih =>
    rw [cons_append, fragBds, ih, fragBds, length_cons, cons_append, add_right_comm, add_assoc i]

theorem fragMaps_append (a : ℕ → DmaAddr) (i : ℕ) (l r : List ℕ) :
    fragMaps a i (l ++ r) = fragMaps a i l ++ fragMaps a (i + l.length) r := by
  induction l generalizing i with
  | nil => rfl
  | cons size l ih =>
    rw [cons_append, fragMaps, ih, fragMaps, length_cons, cons_append, add_right_comm, add_assoc i]

/-- The mappings of the fragments from number `i` on succeed. -/
def Mapped (map : ℕ → Option DmaAddr) (a : ℕ → DmaAddr) : ℕ → List ℕ → Prop
  | _, [] => True
  | i, _ :: frags => map (i + 1) = some (a (i + 1)) ∧ Mapped map a (i + 1) frags

theorem Mapped.append {map : ℕ → Option DmaAddr} {a : ℕ → DmaAddr} {i : ℕ} {l r : List ℕ} :
    Mapped map a i (l ++ r) ↔ Mapped map a i l ∧ Mapped map a (i + l.length) r := by
  induction l generalizing i with
  | nil => simp [Mapped]
  | cons size l ih =>
    simp only [cons_append, Mapped, ih, length_cons, and_assoc]
    rw [add_right_comm i 1, add_assoc i]

section Loops

variable {q : TxQueue} {base : ℕ → ℕ} {P : ℕ} (T : TxRing q.txPbl base)
  {map : ℕ → Option DmaAddr} {a : ℕ → DmaAddr}

include T

variable {l : List ℕ}

/-- **The fragments in the second and third BD**, as far as their mappings succeed. -/
theorem mapHeaderFrags_append (pre : List TxBd) (room : ℕ) (rest : List ℕ) {i : ℕ}
    (hmap : Mapped map a i l) (hroom : l.length ≤ room)
    (hcap : pre.length + room ≤ q.txPbl.capacity) :
    mapHeaderFrags map ((range' (P + pre.length) room).map (q.txPbl.elemAddr base)) i
        (l ++ rest) (q.put base P (pre ++ replicate room .zero)) =
      mapHeaderFrags map
        ((range' (P + pre.length + l.length) (room - l.length)).map (q.txPbl.elemAddr base))
        (i + l.length) rest
        ((q.logs ((fragMaps a i l).map .map)).put base P
          (pre ++ fragBds a i l ++ replicate (room - l.length) .zero)) := by
  induction l generalizing q i room pre with
  | nil => simp [fragMaps, fragBds, logs_nil]
  | cons size l ih =>
    obtain ⟨room, rfl⟩ : ∃ r, room = r + 1 := ⟨room - 1, by simp at hroom; omega⟩
    rw [length_cons] at hroom
    have hlt : pre.length + (replicate room TxBd.zero).length < q.txPbl.capacity := by
      rw [length_replicate]
      omega
    rw [replicate_succ, range'_succ, map_cons, cons_append, mapHeaderFrags,
      hmap.1, put_mapFragToBd T _ _ hlt]
    have hnext := ih (q := q.logs [.map ⟨.page, a (i + 1), size⟩]) T
      (pre ++ [⟨a (i + 1), size % 2 ^ 16, 0⟩]) room hmap.2 (by omega)
      (by rw [length_append]; change pre.length + 1 + room ≤ q.txPbl.capacity; omega)
    simp only [append_assoc, cons_append, nil_append, length_append,
      length_singleton, logs_logs] at hnext
    refine hnext.trans ?_
    simp only [fragMaps, fragBds, length_cons, map_cons, append_assoc,
      cons_append, Nat.add_sub_add_right, Nat.add_assoc, Nat.add_comm 1]
    rfl

/-- All fragments that go into the second and third BD. -/
theorem mapHeaderFrags_all (pre : List TxBd) (room : ℕ) (l : List ℕ)
    (hmap : Mapped map a 0 (l.take room)) (hcap : pre.length + room ≤ q.txPbl.capacity) :
    mapHeaderFrags map ((range' (P + pre.length) room).map (q.txPbl.elemAddr base)) 0 l
        (q.put base P (pre ++ replicate room .zero)) =
      .ok (min room l.length, l.drop room,
        (q.logs ((fragMaps a 0 (l.take room)).map .map)).put base P
          (pre ++ fragBds a 0 (l.take room) ++ replicate (room - l.length) .zero)) := by
  have hlen : (l.take room).length = min room l.length := length_take ..
  have hstep := mapHeaderFrags_append (P := P) T pre room (l.drop room) hmap (by omega) hcap
  rw [take_append_drop, hlen, zero_add,
    show room - min room l.length = room - l.length by omega] at hstep
  rw [hstep]
  rcases le_total room l.length with hle | hle
  · simp [Nat.sub_eq_zero_of_le hle, mapHeaderFrags]
  · rw [drop_eq_nil_of_le hle]
    cases (range' _ (room - l.length)).map _ <;> rfl

/-- **The last fragments**, as far as their mappings succeed. -/
theorem mapLastFrags_append (h : PblAt q.txPbl base q.txPbl.prod P) (img : List TxBd)
    (nbd : ℕ) (rest : List ℕ) {i : ℕ} (hmap : Mapped map a i l) (hnbd : nbd + l.length < 2 ^ 8)
    (hcap : img.length + l.length ≤ q.txPbl.capacity) :
    mapLastFrags map i (l ++ rest) nbd (q.put base P img) =
      mapLastFrags map (i + l.length) rest (nbd + l.length)
        ((q.logs ((fragMaps a i l).map .map)).put base P (img ++ fragBds a i l)) := by
  induction l generalizing q i nbd img with
  | nil => simp [fragMaps, fragBds, logs_nil]
  | cons size l ih =>
    rw [length_cons] at hnbd hcap
    rw [cons_append, mapLastFrags, put_produceBd T h img, hmap.1]
    simp only [put_mapFragToBd T img []
      (show img.length + ([] : List TxBd).length < q.txPbl.capacity by
      rw [length_nil]; omega)]
    have hnext := ih (q := q.logs [.map ⟨.page, a (i + 1), size⟩]) T h
      (img ++ [⟨a (i + 1), size % 2 ^ 16, 0⟩]) (nbd + 1) hmap.2 (by omega)
      (by rw [length_append]; change img.length + 1 + l.length ≤ q.txPbl.capacity; omega)
    rw [mod_eq_of_lt (show nbd + 1 < 2 ^ 8 by omega)]
    refine hnext.trans ?_
    simp [fragMaps, fragBds, add_assoc, add_comm 1, logs_logs]

/-- Both loops, over fragments that fill the second and third BD. -/
theorem mapFrags_append (h : PblAt q.txPbl base q.txPbl.prod P) (pre : List TxBd)
    (room nbd : ℕ) (rest : List ℕ) (hmap : Mapped map a 0 l) (hroom : room ≤ l.length)
    (hnbd : nbd + (l.length - room) < 2 ^ 8) (hcap : pre.length + l.length ≤ q.txPbl.capacity) :
    mapFrags map ((range' (P + pre.length) room).map (q.txPbl.elemAddr base)) (l ++ rest) nbd
        (q.put base P (pre ++ replicate room .zero)) =
      mapLastFrags map l.length rest (nbd + (l.length - room))
        ((q.logs ((fragMaps a 0 l).map .map)).put base P (pre ++ fragBds a 0 l)) := by
  have hlen : (l.take room).length = room := by rw [length_take, Nat.min_eq_left hroom]
  have hlen' : (l.drop room).length = l.length - room := length_drop ..
  have hl := take_append_drop room l
  have hmap' := hmap
  rw [← hl, Mapped.append, hlen, zero_add] at hmap'
  have hbds : fragBds a 0 l = fragBds a 0 (l.take room) ++ fragBds a room (l.drop room) := by
    conv_lhs => rw [← hl, fragBds_append, hlen, zero_add]
  have hmaps : fragMaps a 0 l = fragMaps a 0 (l.take room) ++ fragMaps a room (l.drop room) := by
    conv_lhs => rw [← hl, fragMaps_append, hlen, zero_add]
  have hnr : room ≤ (l ++ rest).length := by
    rw [length_append]
    omega
  have htake : (l ++ rest).take room = l.take room := take_append_of_le_length hroom
  have hheader := mapHeaderFrags_all (P := P) T pre room (l ++ rest)
    (by rw [htake]; exact hmap'.1) (by omega)
  rw [htake, Nat.min_eq_left hnr, Nat.sub_eq_zero_of_le hnr, replicate_zero, append_nil,
    drop_append_of_le_length hroom] at hheader
  have hlast := mapLastFrags_append (q := q.logs ((fragMaps a 0 (l.take room)).map .map)) (P := P)
    T h (pre ++ fragBds a 0 (l.take room)) nbd rest hmap'.2 (by omega)
    (by
      rw [length_append, length_fragBds]
      change _ ≤ q.txPbl.capacity
      omega)
  rw [hlen', Nat.add_sub_cancel' hroom, logs_logs, ← map_append, ← hmaps,
    append_assoc, ← hbds] at hlast
  simp [mapFrags, hheader, hlast]

end Loops

/-! ## The linear part -/

/-- The packet needs a second and third BD. -/
def XmitType.ext (t : XmitType) : Bool := t.lso || t.ipv6Ext

/-- The header is split off. -/
def Skb.split (skb : Skb) (t : XmitType) : Bool :=
  t.lso && decide (qedeGetSkbHlen skb t.enc < skb.headlen)

def Skb.TooLong (skb : Skb) (t : XmitType) : Prop :=
  t.lso = false ∧ ETH_TX_MAX_NON_LSO_PKT_LEN ≤ skb.len
  deriving Decidable

/-- The BDs of the linear part, mapped to `a₀`, before their number is known. -/
def Skb.linearBds (skb : Skb) (t : XmitType) (a₀ : DmaAddr) : List TxBd :=
  if skb.split t then
    [⟨a₀, qedeGetSkbHlen skb t.enc, 0⟩,
      ⟨a₀ + BitVec.ofNat 64 (qedeGetSkbHlen skb t.enc),
        Word.sub 16 (skb.headlen % 2 ^ 16) (qedeGetSkbHlen skb t.enc), 0⟩]
  else [⟨a₀, skb.headlen % 2 ^ 16, 0⟩]

/-- The BDs that fragments find produced already. -/
def Skb.room (skb : Skb) (t : XmitType) : ℕ :=
  if t.ext then if skb.split t then 1 else 2 else 0

theorem length_linearBds (skb : Skb) (t : XmitType) (a₀ : DmaAddr) :
    (skb.linearBds t a₀).length = if skb.split t then 2 else 1 := by
  unfold linearBds
  split <;> rfl

/-- A header is split off into the second BD. -/
theorem ext_of_split {skb : Skb} {t : XmitType} (hs : skb.split t) : t.ext := by
  rw [split, Bool.and_eq_true] at hs
  rw [XmitType.ext, hs.1, Bool.true_or]

theorem length_linearBds_add_room (skb : Skb) (t : XmitType) (a₀ : DmaAddr) :
    (skb.linearBds t a₀).length + skb.room t = if t.ext then 3 else 1 := by
  rw [length_linearBds, room]
  by_cases hs : skb.split t
  · rw [if_pos hs, if_pos hs, if_pos (ext_of_split hs), if_pos (ext_of_split hs)]
  · rw [if_neg hs, if_neg hs]
    split <;> rfl

theorem length_linearBds_add_room_le (skb : Skb) (t : XmitType) (a₀ : DmaAddr) :
    (skb.linearBds t a₀).length + skb.room t ≤ 3 := by
  rw [length_linearBds_add_room]
  split <;> omega

/-- The queue once the slot is taken and the linear part is mapped to `a₀`. -/
def TxQueue.started (q : TxQueue) (skb : Skb) (t : XmitType) (a₀ : DmaAddr) : TxQueue :=
  (q.setSlot q.swTxProd ⟨some skb, (q.skbs q.swTxProd).tsoSplitBd || skb.split t⟩).logs
    [.map ⟨.single, a₀, skb.headlen⟩]

section Linear

variable {q : TxQueue} {base : ℕ → ℕ} {P : ℕ} (T : TxRing q.txPbl base)
  (h : PblAt q.txPbl base q.txPbl.prod P) {map : ℕ → Option DmaAddr} {skb : Skb}
  {t : XmitType}

include T h

/-- The first BD, and the second and third one if the packet needs them. -/
theorem xmitLinear_eq (skb : Skb) (t : XmitType) {a₀ : DmaAddr} (hmap : map 0 = some a₀) :
    xmitLinear map skb t q =
      if t.ext then
        xmitHeader map skb t (q.txPbl.elemAddr base P) 3
          [q.txPbl.elemAddr base (P + 1), q.txPbl.elemAddr base (P + 2)]
          ((q.logs [.map ⟨.single, a₀, skb.headlen⟩]).put base P
            [⟨a₀, skb.headlen % 2 ^ 16, 0⟩, .zero, .zero])
      else
        xmitHeader map skb t (q.txPbl.elemAddr base P) 1 []
          ((q.logs [.map ⟨.single, a₀, skb.headlen⟩]).put base P
            [⟨a₀, skb.headlen % 2 ^ 16, 0⟩]) := by
  have hcap := T.le_capacity
  have hext : (t.lso = true ∨ t.ipv6Ext = true) = (t.ext = true) := by
    rw [XmitType.ext, Bool.or_eq_true]
  have h₁ : q.produceBd = (q.txPbl.elemAddr base P, q.put base P [.zero]) := put_produceBd T h []
  have hread : (q.put base P [.zero]).bds (q.txPbl.elemAddr base P) = .zero :=
    put_bds T [] [] (by simp only [length_nil]; omega)
  have hset : ∀ b, (q.put base P [.zero]).setBd (q.txPbl.elemAddr base P) b = q.put base P [b] :=
    fun b => put_setBd T [] [] (by simp only [length_nil]; omega)
  have h₂ : ∀ (ops : List DmaOp) (img : List TxBd), ((q.logs ops).put base P img).produceBd =
      (q.txPbl.elemAddr base (P + img.length), (q.logs ops).put base P (img ++ [.zero])) :=
    fun ops img => put_produceBd (q := q.logs ops) T h img
  unfold xmitLinear
  simp only [hmap, h₁, hread, hset, put_log, hext, h₂, cons_append, nil_append,
    length_cons, length_nil]
  rfl

omit h in
theorem put_splitHeader (a₀ : DmaAddr) (n hlen : ℕ) (post : List TxBd)
    (hlen' : 1 + post.length < q.txPbl.capacity) :
    splitHeader (q.txPbl.elemAddr base P) (q.txPbl.elemAddr base (P + 1)) hlen
        (q.put base P (⟨a₀, n, 0⟩ :: .zero :: post)) =
      (q.setSlot q.swTxProd { q.skbs q.swTxProd with tsoSplitBd := true }).put base P
        (⟨a₀, hlen, 0⟩ :: ⟨a₀ + BitVec.ofNat 64 hlen, Word.sub 16 n hlen, 0⟩ :: post) := by
  have hpost : ([] : List TxBd).length + (TxBd.zero :: post).length < q.txPbl.capacity := by
    simp only [length_nil, length_cons]
    omega
  have hread₁ : (q.put base P (⟨a₀, n, 0⟩ :: .zero :: post)).bds (q.txPbl.elemAddr base P) =
      ⟨a₀, n, 0⟩ := put_bds T [] _ hpost
  have hread₂ : (q.put base P (⟨a₀, n, 0⟩ :: .zero :: post)).bds
      (q.txPbl.elemAddr base (P + 1)) = .zero := put_bds T [⟨a₀, n, 0⟩] _ hlen'
  have hset₂ : ∀ b, (q.put base P (⟨a₀, n, 0⟩ :: .zero :: post)).setBd
      (q.txPbl.elemAddr base (P + 1)) b = q.put base P (⟨a₀, n, 0⟩ :: b :: post) :=
    fun b => put_setBd T [⟨a₀, n, 0⟩] _ hlen'
  have hread₃ : ∀ (s : SwTxBd) (b : TxBd), ((q.setSlot q.swTxProd s).put base P
      (⟨a₀, n, 0⟩ :: b :: post)).bds (q.txPbl.elemAddr base P) = ⟨a₀, n, 0⟩ :=
    fun s b => put_bds (q := q.setSlot q.swTxProd s) T [] _ hpost
  have hset₃ : ∀ (s : SwTxBd) (b c : TxBd), ((q.setSlot q.swTxProd s).put base P
      (⟨a₀, n, 0⟩ :: b :: post)).setBd (q.txPbl.elemAddr base P) c =
        (q.setSlot q.swTxProd s).put base P (c :: b :: post) :=
    fun s b c => put_setBd (q := q.setSlot q.swTxProd s) T [] _ hpost
  have hmod : Word.sub 16 n hlen % 2 ^ 16 = Word.sub 16 n hlen := mod_eq_of_lt (Word.sub_lt ..)
  simp only [splitHeader, hread₁, hread₂, hset₂, put_setSlot]
  simp only [TxBd.setUnmapAddrLen, hmod, TxBd.zero]
  rw [show (q.put base P (⟨a₀, n, 0⟩ :: ⟨a₀ + BitVec.ofNat 64 hlen, Word.sub 16 n hlen, 0⟩ ::
    post)).swTxProd = q.swTxProd from rfl, hread₃, hset₃]
  rfl

omit T h in
theorem xmitHeader_of_split {q : TxQueue} {firstBd secondBd nbd : ℕ} {thirdBds : List ℕ}
    (hs : skb.split t) :
    xmitHeader map skb t firstBd nbd (secondBd :: thirdBds) q =
      xmitFrags map skb firstBd nbd true thirdBds
        (splitHeader firstBd secondBd (qedeGetSkbHlen skb t.enc) q) := by
  rw [split, Bool.and_eq_true, decide_eq_true_eq] at hs
  simp [xmitHeader, hs.1, hs.2]

omit T h in
theorem xmitHeader_of_not_split {q : TxQueue} {firstBd nbd : ℕ} {txDataBds : List ℕ}
    (hs : ¬ skb.split t) (hlong : ¬ skb.TooLong t) :
    xmitHeader map skb t firstBd nbd txDataBds q =
      xmitFrags map skb firstBd nbd false txDataBds q := by
  rw [split, Bool.and_eq_true, decide_eq_true_eq] at hs
  unfold xmitHeader
  cases hl : t.lso with
  | false => rw [if_neg (by simp), if_neg fun hlen => hlong ⟨hl, hlen⟩]
  | true =>
    have hle : ¬ qedeGetSkbHlen skb t.enc < skb.headlen := fun hlt => hs ⟨hl, hlt⟩
    cases txDataBds with
    | nil => rfl
    | cons secondBd thirdBds => simp [hle]

omit T h in
theorem xmitHeader_of_tooLong {q : TxQueue} {firstBd nbd : ℕ} {txDataBds : List ℕ}
    (hlong : skb.TooLong t) :
    xmitHeader map skb t firstBd nbd txDataBds q =
      (false, qedeFreeFailedTxPkt q firstBd 0 false) := by
  rw [xmitHeader, if_neg (by simp [hlong.1]), if_pos hlong.2]

/-- **The linear part and the header BDs** are written. -/
theorem xmitSkb_eq {a₀ : DmaAddr} (hmap : map 0 = some a₀) (hlong : ¬ skb.TooLong t) :
    xmitSkb map skb t q = xmitFrags map skb (q.txPbl.elemAddr base P)
        ((skb.linearBds t a₀).length + skb.room t) (skb.split t)
        ((range' (P + (skb.linearBds t a₀).length) (skb.room t)).map
          (q.txPbl.elemAddr base))
        ((q.started skb t a₀).put base P
          (skb.linearBds t a₀ ++ replicate (skb.room t) .zero)) := by
  have hcap := T.le_capacity
  have hlin := xmitLinear_eq (q := q.setSlot q.swTxProd { q.skbs q.swTxProd with skb := some skb })
    T h skb t hmap
  rw [xmitSkb, hlin, length_linearBds_add_room, length_linearBds]
  by_cases hs : skb.split t
  · have hroom : skb.room t = 1 := by rw [room, if_pos (ext_of_split hs), if_pos hs]
    have hbds : skb.linearBds t a₀ = _ := if_pos hs
    have hput := put_splitHeader (q := (q.setSlot q.swTxProd
      { q.skbs q.swTxProd with skb := some skb }).logs [.map ⟨.single, a₀, skb.headlen⟩])
      (P := P) T a₀ (skb.headlen % 2 ^ 16) (qedeGetSkbHlen skb t.enc) [.zero]
        (by change 2 < q.txPbl.capacity; omega)
    have hslot : q.started skb t a₀ = ((q.setSlot q.swTxProd
        { q.skbs q.swTxProd with skb := some skb }).logs
          [.map ⟨.single, a₀, skb.headlen⟩]).setSlot q.swTxProd ⟨some skb, true⟩ := by
      simp [started, setSlot, logs, update_idem, hs, Bool.or_true]
    simp only [setSlot, logs, update_self] at hput hslot
    rw [if_pos (ext_of_split hs), if_pos (ext_of_split hs), xmitHeader_of_split hs,
      if_pos hs, hroom,
      hbds, hs, hslot]
    exact congrArg _ hput
  · have hbds : skb.linearBds t a₀ = _ := if_neg hs
    have hslot : q.started skb t a₀ = (q.setSlot q.swTxProd
        { q.skbs q.swTxProd with skb := some skb }).logs [.map ⟨.single, a₀, skb.headlen⟩] := by
      simp [started, Bool.eq_false_of_not_eq_true hs, Bool.or_false]
    rw [xmitHeader_of_not_split hs hlong, xmitHeader_of_not_split hs hlong, if_neg hs, hbds, hslot,
      room, Bool.eq_false_of_not_eq_true hs]
    by_cases hext : t.ext
    · simp only [hext, if_true, Bool.false_eq_true, if_false]
      rfl
    · simp only [hext]
      rfl

end Linear

/-! ## The whole packet -/

section Frags

variable {q : TxQueue} {base : ℕ → ℕ} {P : ℕ} (T : TxRing q.txPbl base)
  (h : PblAt q.txPbl base q.txPbl.prod P) {map : ℕ → Option DmaAddr}
  {a : ℕ → DmaAddr} {skb : Skb} (split : Bool) (lin : List TxBd) (room : ℕ)

include T h

/-- **A fragment cannot be mapped**, after those of `l` were: the BDs that are cleared and
empty, and the number of BDs that `qede_free_failed_tx_pkt` is called with. -/
theorem xmitFrags_failed {l rest : List ℕ} {size : ℕ} (hfrags : skb.frags = l ++ size :: rest)
    (hmap : Mapped map a 0 l) (hfail : map (l.length + 1) = none)
    (hcap : lin.length + room + l.length < 2 ^ 8) :
    xmitFrags map skb (q.txPbl.elemAddr base P) (lin.length + room) split
        ((range' (P + lin.length) room).map (q.txPbl.elemAddr base))
        (q.put base P (lin ++ replicate room .zero)) =
      (false, qedeFreeFailedTxPkt
        ((q.logs ((fragMaps a 0 l).map .map)).put base P
          (lin ++ fragBds a 0 l ++ replicate (max 1 (room - l.length)) .zero))
        (q.txPbl.elemAddr base P) (lin.length + max room l.length) split) := by
  have hcap' := T.le_capacity
  unfold xmitFrags
  rcases lt_or_ge l.length room with hlt | hge
  · -- in the second or third BD
    obtain ⟨n, hn⟩ : ∃ n, room - l.length = n + 1 := ⟨room - l.length - 1, by omega⟩
    rw [mapFrags, hfrags, mapHeaderFrags_append T _ _ _ hmap hlt.le (by omega), hn, range'_succ,
      map_cons, mapHeaderFrags, zero_add, hfail, max_eq_left hlt.le,
      max_eq_right (by omega : 1 ≤ n + 1)]
    rfl
  · -- in a BD of its own
    have hprod := put_produceBd (q := q.logs ((fragMaps a 0 l).map .map)) (P := P)
      T h (lin ++ fragBds a 0 l)
    rw [hfrags, mapFrags_append T h _ _ _ _ hmap hge (by omega) (by omega),
      mapLastFrags, hprod, hfail,
      max_eq_right hge, Nat.sub_eq_zero_of_le hge, add_assoc, Nat.add_sub_cancel' hge]
    rfl

/-- **All fragments are mapped**: the BDs of the packet. -/
theorem xmitFrags_sent (hmap : Mapped map a 0 skb.frags)
    (hcap : lin.length + room + skb.nrFrags < 2 ^ 8) :
    xmitFrags map skb (q.txPbl.elemAddr base P) (lin.length + room) split
        ((range' (P + lin.length) room).map (q.txPbl.elemAddr base))
        (q.put base P (lin ++ replicate room .zero)) =
      (true, sendPkt (q.txPbl.elemAddr base P) (lin.length + max room skb.nrFrags)
        ((q.logs ((fragMaps a 0 skb.frags).map .map)).put base P
          (lin ++ fragBds a 0 skb.frags ++ replicate (room - skb.nrFrags) .zero))) := by
  have hcap' := T.le_capacity
  unfold nrFrags at hcap ⊢
  unfold xmitFrags
  rcases le_total room skb.frags.length with hle | hle
  · have hall := mapFrags_append T h lin room (lin.length + room) [] hmap hle (by omega)
      (by omega)
    rw [append_nil, mapLastFrags, add_assoc, Nat.add_sub_cancel' hle] at hall
    rw [hall, max_eq_right hle, Nat.sub_eq_zero_of_le hle, replicate_zero, append_nil]
  · have hall := mapHeaderFrags_all (P := P) T lin room skb.frags
      (by rw [take_of_length_le hle]; exact hmap) (by omega)
    rw [take_of_length_le hle, drop_eq_nil_of_le hle] at hall
    simp [mapFrags, hall, mapLastFrags, max_eq_left hle]

end Frags

/-- A list of BDs whose first one carries their number. -/
def numbered : List TxBd → List TxBd
  | [] => []
  | b :: l => { b with nbds := l.length + 1 } :: l

@[simp] theorem length_numbered (l : List TxBd) : (numbered l).length = l.length := by
  cases l <;> rfl

/-- **The BDs of a packet** whose linear part is mapped to `a 0` and whose fragment `i` is mapped to
`a (i + 1)`. -/
def Skb.image (skb : Skb) (t : XmitType) (a : ℕ → DmaAddr) : List TxBd :=
  numbered (skb.linearBds t (a 0) ++ fragBds a 0 skb.frags ++
    replicate (skb.room t - skb.nrFrags) .zero)

def Skb.mappings (skb : Skb) (a : ℕ → DmaAddr) : List DmaMapping :=
  ⟨.single, a 0, skb.headlen⟩ :: fragMaps a 0 skb.frags

theorem length_image (skb : Skb) (t : XmitType) (a : ℕ → DmaAddr) :
    (skb.image t a).length = (skb.linearBds t (a 0)).length + max (skb.room t) skb.nrFrags := by
  have hnr : skb.frags.length = skb.nrFrags := rfl
  rw [image, length_numbered, length_append, length_append, length_fragBds, length_replicate, hnr]
  omega

section Sent

variable {q : TxQueue} {base : ℕ → ℕ} {P : ℕ} (T : TxRing q.txPbl base)

include T

theorem sendPkt_put {b : TxBd} {l : List TxBd} (hlen : l.length < q.txPbl.capacity) :
    sendPkt (q.txPbl.elemAddr base P) (l.length + 1) (q.put base P (b :: l)) =
      { q.put base P (numbered (b :: l)) with
        swTxProd := (q.swTxProd + 1) % q.numTxBuffers
        bdProd := (produceN (l.length + 1) q.txPbl).prod.idx } := by
  have hpost : ([] : List TxBd).length + l.length < q.txPbl.capacity := by
    rwa [length_nil, zero_add]
  have hread : (q.put base P (b :: l)).bds (q.txPbl.elemAddr base P) = b := put_bds T [] l hpost
  have hset : ∀ c, (q.put base P (b :: l)).setBd (q.txPbl.elemAddr base P) c =
      q.put base P (c :: l) := fun c => put_setBd T [] l hpost
  rw [sendPkt, hread, hset]
  rfl

variable (h : PblAt q.txPbl base q.txPbl.prod P)

include h

/-- **A packet is sent**, if every mapping succeeds. -/
theorem xmitSkb_sent {map : ℕ → Option DmaAddr} {a : ℕ → DmaAddr} {skb : Skb} {t : XmitType}
    (hmap₀ : map 0 = some (a 0)) (hmap : Mapped map a 0 skb.frags) (hlong : ¬ skb.TooLong t)
    (hnr : skb.nrFrags < 2 ^ 7) :
    xmitSkb map skb t q =
      (true, { (((q.started skb t (a 0)).logs ((fragMaps a 0 skb.frags).map .map)).put base P
          (skb.image t a)) with
        swTxProd := (q.swTxProd + 1) % q.numTxBuffers
        bdProd := (produceN (skb.image t a).length q.txPbl).prod.idx }) := by
  have hlin := length_linearBds_add_room skb t (a 0)
  have hlin' := length_linearBds_add_room_le skb t (a 0)
  have himg := length_image skb t a
  have hcap := T.le_capacity
  obtain ⟨b, l, hbl⟩ : ∃ b l, skb.linearBds t (a 0) ++ fragBds a 0 skb.frags ++
      replicate (skb.room t - skb.nrFrags) .zero = b :: l := by
    unfold linearBds
    split <;> exact ⟨_, _, rfl⟩
  have himg' : skb.image t a = numbered (b :: l) := by rw [image, hbl]
  rw [himg', length_numbered, length_cons] at himg
  have hfrags := xmitFrags_sent (q := q.started skb t (a 0)) T h (skb.split t)
    (skb.linearBds t (a 0)) (skb.room t) hmap (by omega)
  have hsend := sendPkt_put (q := (q.started skb t (a 0)).logs ((fragMaps a 0 skb.frags).map .map))
    (P := P) (b := b) (l := l) T (by change _ < q.txPbl.capacity; omega)
  rw [xmitSkb_eq T h hmap₀ hlong, himg', length_numbered, length_cons]
  rw [hbl, ← himg] at hfrags
  exact hfrags.trans (congrArg (Prod.mk true) hsend)

end Sent

end FastLinQ.Qede
