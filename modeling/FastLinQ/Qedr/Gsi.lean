import FastLinQ.Foundations.Cells
import FastLinQ.Foundations.Run

/-!
# The GSI queue pair

The general services QP is a software QP over a light L2 (LL2) connection. Each of its two queues is
a ring with three indices: a request is posted at `prod`, LL2 completes the request at `gsi_cons`,
and `qedr_gsi_poll_cq` reports the one at `cons`. The rings have one entry more than the client
asked for, to tell a full ring from an empty one, but the posters do not look whether the ring is
full; they ask LL2, which has room for more.

A call takes a list of requests, and the client may count on those before `*bad_wr`, or on all of
them if the call returns zero (`gsiAccepted`). Only one send is posted in a call. During a recovery
the others are dropped without a word, and if LL2 refuses the first of several, `*bad_wr` is the
second. `RingAt` says where a ring stands. The result is about the runs in which no request is
posted on a full ring, and no list of sends is posted in these two cases (`GsiSys.Orderly`).
-/

namespace FastLinQ.Qedr

open Function List Nat Cells

/-! ## The rings -/

/-- The indices of `struct qedr_qp_hwq_info` that the GSI QP uses, and its shadow array. -/
structure GsiRing (E : Type*) where
  maxWr : ℕ
  prod : ℕ
  gsiCons : ℕ
  cons : ℕ
  ids : ℕ → E

namespace GsiRing

variable {E : Type*}

/-- A ring in zeroed memory; one entry is added to what the client asks for. -/
def fresh (maxWr : ℕ) (zero : E) : GsiRing E := ⟨maxWr + 1, 0, 0, 0, fun _ => zero⟩

/-- The request is stored at `prod`, then `qedr_inc_sw_prod`. -/
def post (r : GsiRing E) (e : E) : GsiRing E :=
  { r with ids := update r.ids r.prod e, prod := (r.prod + 1) % r.maxWr }

def incSwGsiCons (r : GsiRing E) : GsiRing E := { r with gsiCons := (r.gsiCons + 1) % r.maxWr }

def incSwCons (r : GsiRing E) : GsiRing E := { r with cons := (r.cons + 1) % r.maxWr }

/-- The ring is full: `qedr_wq_is_full`. -/
def IsFull (r : GsiRing E) : Prop := (r.prod + 1) % r.maxWr = r.cons
  deriving Decidable

end GsiRing

/-- The requests `posted` were posted, the first `g` are completed and the first `c` reported. -/
structure RingAt {E : Type*} (r : GsiRing E) (posted : List E) (g c : ℕ) : Prop where
  reported_le : c ≤ g
  completed_le : g ≤ posted.length
  room : posted.length < c + r.maxWr
  prod : r.prod = posted.length % r.maxWr
  gsiCons : r.gsiCons = g % r.maxWr
  cons : r.cons = c % r.maxWr
  holds : ∀ i, c ≤ i → i < posted.length → posted[i]? = some (r.ids (i % r.maxWr))

namespace RingAt

variable {E : Type*} {r : GsiRing E} {posted : List E} {g c : ℕ}

theorem start (maxWr : ℕ) (zero : E) : RingAt (.fresh maxWr zero) [] 0 0 :=
  ⟨le_rfl, le_rfl, (zero_lt_succ maxWr).trans_eq (zero_add _).symm, (zero_mod _).symm,
    (zero_mod _).symm, (zero_mod _).symm, nofun⟩

variable (h : RingAt r posted g c)

include h

theorem post (hfull : ¬r.IsFull) (e : E) : RingAt (r.post e) (posted ++ [e]) g c where
  reported_le := h.reported_le
  completed_le := by
    rw [length_append]
    exact h.completed_le.trans (le_add_right _ _)
  room := by
    have hroom := h.room
    rw [length_append]
    change posted.length + 1 < c + r.maxWr
    refine lt_of_le_of_ne hroom fun hlast => hfull ?_
    rw [GsiRing.IsFull, h.prod, h.cons, mod_add_mod, hlast, add_mod_right]
  prod := by
    change (r.prod + 1) % r.maxWr = _ % r.maxWr
    rw [h.prod, mod_add_mod, length_append]
    rfl
  gsiCons := h.gsiCons
  cons := h.cons
  holds i hc hi := by
    change _ = some (update r.ids r.prod e (i % r.maxWr))
    rw [length_append, length_singleton] at hi
    rcases Nat.lt_succ_iff_lt_or_eq.1 hi with hlt | rfl
    · have hroom := h.room
      have hne : i % r.maxWr ≠ r.prod := by
        rw [h.prod]
        exact apart_mod r.maxWr i posted.length hlt (by omega)
      rw [getElem?_append_left hlt, update_of_ne hne]
      exact h.holds i hc hlt
    · rw [getElem?_concat_length, ← h.prod, update_self]

theorem complete (hg : g < posted.length) : RingAt r.incSwGsiCons posted (g + 1) c := by
  refine { h with
    reported_le := h.reported_le.trans (le_succ g)
    completed_le := hg
    gsiCons := ?_ }
  change (r.gsiCons + 1) % r.maxWr = _ % r.maxWr
  rw [h.gsiCons, mod_add_mod]

/-- What LL2 says about it is stored in its entry. -/
theorem mark (hg : g < posted.length) (e : E) :
    RingAt { r with ids := update r.ids r.gsiCons e } (posted.set g e) g c := by
  have hlen : (posted.set g e).length = posted.length := length_set
  refine { h with
    completed_le := hlen ▸ h.completed_le
    room := hlen ▸ h.room
    prod := hlen ▸ h.prod
    holds := fun i hc hi => ?_ }
  have hle := h.reported_le
  have hroom := h.room
  rw [hlen] at hi
  dsimp only
  rcases eq_or_ne i g with rfl | hig
  · rw [getElem?_set_self hi, ← h.gsiCons, update_self]
  · have hne : i % r.maxWr ≠ r.gsiCons := by
      rw [h.gsiCons]
      rcases hig.lt_or_gt with hlt | hlt
      · exact apart_mod r.maxWr i g hlt (by omega)
      · exact (apart_mod r.maxWr g i hlt (by omega)).symm
    rw [getElem?_set_ne hig.symm, update_of_ne hne]
    exact h.holds i hc hi

/-- The test of `qedr_gsi_poll_cq` tells whether there is something to report. -/
theorem cons_eq_iff : r.cons = r.gsiCons ↔ c = g := by
  have hroom := h.room
  have hle := h.completed_le
  rw [h.cons, h.gsiCons]
  refine ⟨fun hmod => ?_, fun heq => by rw [heq]⟩
  rcases h.reported_le.lt_or_eq with hlt | heq
  · exact absurd hmod (apart_mod r.maxWr c g hlt (by omega))
  · exact heq

theorem report (hc : c < g) :
    posted[c]? = some (r.ids r.cons) ∧ RingAt r.incSwCons posted g (c + 1) := by
  have hlt := hc.trans_le h.completed_le
  refine ⟨?_, hc, h.completed_le, ?_, h.prod, h.gsiCons, ?_, fun i hi => h.holds i (by omega)⟩
  · rw [h.cons]
    exact h.holds c le_rfl hlt
  · have hroom := h.room
    change posted.length < c + 1 + r.maxWr
    omega
  · change (r.cons + 1) % r.maxWr = _ % r.maxWr
    rw [h.cons, mod_add_mod]

end RingAt

/-! ## The QP and LL2 -/

/-- What LL2 says about a received packet. -/
structure GsiRx where
  lengthErr : Bool
  dataLength : ℕ
  vlan : ℕ
  smac : ℕ
  deriving DecidableEq, Repr

/-- An entry of `rqe_wr_id`; `rx` is what was stored when the packet came. -/
structure GsiRqe where
  wrId : ℕ
  rx : Option GsiRx
  deriving DecidableEq, Repr

/-- A work completion: a receive with what its entry says, or a send. -/
inductive GsiWc
  | recv (e : GsiRqe)
  | send (wrId : ℕ)
  deriving DecidableEq, Repr

/-- What becomes of a send: it fails in a check, or LL2 takes the packet, refuses the header, or
takes the header and refuses a fragment. -/
inductive GsiTxAnswer
  | invalid
  | taken
  | headerFailed
  | payloadFailed
  deriving DecidableEq, Repr

/-- A receive, and whether it passes the check and LL2 takes the buffer. -/
structure GsiRecvWr where
  wrId : ℕ
  taken : Bool
  deriving DecidableEq, Repr

/-- The requests that the client may count on; `bad` are those from `*bad_wr` on, or none if the
call returned zero. -/
def gsiAccepted {E : Type*} (wrs bad : List E) : List E := wrs.take (wrs.length - bad.length)

/-- The GSI QP, the packets and the buffers that LL2 has, and the history: the accepted sends and
receives, what LL2 said about the received packets, and what was reported. -/
structure GsiSys where
  sq : GsiRing ℕ
  rq : GsiRing GsiRqe
  recovInProg : Bool
  txPackets : ℕ
  rxBuffers : ℕ
  sends : List ℕ
  recvs : List ℕ
  rx : List GsiRx
  reported : List GsiWc

inductive GsiEvent
  /-- A recovery begins or ends. -/
  | recov (inProg : Bool)
  | postSend (wrId : ℕ) (next : List ℕ) (ans : GsiTxAnswer)
  /-- A call, or a part of one if a poll comes in between. -/
  | postRecv (wrs : List GsiRecvWr)
  | txComplete
  | rxComplete (rx : GsiRx)
  /-- A turn of the first loop of `qedr_gsi_poll_cq`. -/
  | pollRecv
  /-- A turn of its second loop. -/
  | pollSend
  /-- A call with an array of `numEntries`, without anything in between. -/
  | poll (numEntries : ℕ)

namespace GsiSys

def create (maxSendWr maxRecvWr : ℕ) : GsiSys where
  sq := .fresh maxSendWr 0
  rq := .fresh maxRecvWr ⟨0, none⟩
  recovInProg := false
  txPackets := 0
  rxBuffers := 0
  sends := []
  recvs := []
  rx := []
  reported := []

/-- `qedr_gsi_post_send`, with the requests from `*bad_wr` on. During a recovery a send is completed
at once. LL2 keeps a part of a packet and never completes it. -/
def qedrGsiPostSend (s : GsiSys) (wrId : ℕ) (next : List ℕ) (ans : GsiTxAnswer) :
    GsiSys × List ℕ :=
  if s.recovInProg then ({ s with sq := (s.sq.post wrId).incSwGsiCons }, [])
  else
    match ans with
    | .invalid => (s, wrId :: next)
    | .taken => ({ s with sq := s.sq.post wrId, txPackets := s.txPackets + 1 }, next)
    -- `*bad_wr` is moved on to the next request, if there is one
    | .headerFailed | .payloadFailed => (s, if next = [] then [wrId] else next)

/-- The loop of `qedr_gsi_post_recv`, with the requests from `*bad_wr` on. -/
def qedrGsiPostRecv (s : GsiSys) : List GsiRecvWr → GsiSys × List GsiRecvWr
  | [] => (s, [])
  | wr :: next =>
    if wr.taken then
      qedrGsiPostRecv { s with rq := s.rq.post ⟨wr.wrId, none⟩, rxBuffers := s.rxBuffers + 1 } next
    else (s, wr :: next)

def completeTxPacket (s : GsiSys) : GsiSys :=
  { s with sq := s.sq.incSwGsiCons, txPackets := s.txPackets - 1 }

def completeRxPacket (s : GsiSys) (rx : GsiRx) : GsiSys :=
  let e := s.rq.ids s.rq.gsiCons
  { s with
    rq := GsiRing.incSwGsiCons
      { s.rq with ids := update s.rq.ids s.rq.gsiCons { e with rx := some rx } }
    rxBuffers := s.rxBuffers - 1
    rx := s.rx ++ [rx] }

/-- A turn of the first loop of `qedr_gsi_poll_cq`, if there is a receive to report. -/
def pollRecv (s : GsiSys) : GsiSys :=
  if s.rq.cons = s.rq.gsiCons then s
  else { s with rq := s.rq.incSwCons, reported := s.reported ++ [.recv (s.rq.ids s.rq.cons)] }

/-- A turn of the second loop, if there is a send to report. -/
def pollSend (s : GsiSys) : GsiSys :=
  if s.sq.cons = s.sq.gsiCons then s
  else { s with sq := s.sq.incSwCons, reported := s.reported ++ [.send (s.sq.ids s.sq.cons)] }

/-- `qedr_gsi_poll_cq`: the second loop has what the first one left of the array. -/
def qedrGsiPollCq (s : GsiSys) (numEntries : ℕ) : GsiSys :=
  let s' := pollRecv^[numEntries] s
  pollSend^[numEntries - (s'.reported.length - s.reported.length)] s'

def step (s : GsiSys) : GsiEvent → GsiSys
  | .recov inProg => { s with recovInProg := inProg }
  | .postSend wrId next ans =>
    let r := s.qedrGsiPostSend wrId next ans
    { r.1 with sends := s.sends ++ gsiAccepted (wrId :: next) r.2 }
  | .postRecv wrs =>
    let r := s.qedrGsiPostRecv wrs
    { r.1 with recvs := s.recvs ++ (gsiAccepted wrs r.2).map GsiRecvWr.wrId }
  | .txComplete => s.completeTxPacket
  | .rxComplete rx => s.completeRxPacket rx
  | .pollRecv => s.pollRecv
  | .pollSend => s.pollSend
  | .poll numEntries => s.qedrGsiPollCq numEntries

/-- LL2 completes the packets and the buffers it has. -/
def Ll2Ok (s : GsiSys) : GsiEvent → Prop
  | .txComplete => 0 < s.txPackets
  | .rxComplete _ => 0 < s.rxBuffers
  | _ => True

instance decidableLl2Ok (s : GsiSys) (e : GsiEvent) : Decidable (s.Ll2Ok e) := by
  unfold Ll2Ok
  cases e <;> infer_instance

def RecvRoom (rq : GsiRing GsiRqe) : List GsiRecvWr → Prop
  | [] => True
  | wr :: next => wr.taken = true → ¬rq.IsFull ∧ RecvRoom (rq.post ⟨wr.wrId, none⟩) next

instance decidableRecvRoom (rq : GsiRing GsiRqe) : (wrs : List GsiRecvWr) →
    Decidable (RecvRoom rq wrs)
  | [] => instDecidableTrue
  | wr :: next =>
    have := decidableRecvRoom (rq.post ⟨wr.wrId, none⟩) next
    inferInstanceAs (Decidable (wr.taken = true → ¬rq.IsFull ∧ _))

/-- Nothing is posted on a full ring, and a send in a recovery or one that LL2 refuses is alone. -/
def Orderly (s : GsiSys) : GsiEvent → Prop
  | .postSend _ next ans =>
    if s.recovInProg then ¬s.sq.IsFull ∧ next = []
    else (ans = .taken → ¬s.sq.IsFull) ∧ (ans = .headerFailed ∨ ans = .payloadFailed → next = [])
  | .postRecv wrs => RecvRoom s.rq wrs
  | _ => True

instance decidableOrderly (s : GsiSys) (e : GsiEvent) : Decidable (s.Orderly e) := by
  unfold Orderly
  cases e <;> infer_instance

def StepOk (s : GsiSys) (e : GsiEvent) : Prop := s.Ll2Ok e ∧ s.Orderly e
  deriving Decidable

def recvWcs (s : GsiSys) : List GsiRqe :=
  s.reported.filterMap fun
    | .recv e => some e
    | .send _ => none

def sendWcs (s : GsiSys) : List ℕ :=
  s.reported.filterMap fun
    | .recv _ => none
    | .send wrId => some wrId

end GsiSys

/-! ## What holds of every run -/

/-- The entries of the accepted receives: LL2 has spoken about the first of them. -/
def gsiRqes (recvs : List ℕ) (rx : List GsiRx) : List GsiRqe :=
  recvs.mapIdx fun i wrId => ⟨wrId, rx[i]?⟩

theorem length_gsiRqes (recvs : List ℕ) (rx : List GsiRx) :
    (gsiRqes recvs rx).length = recvs.length :=
  length_mapIdx

theorem gsiRqes_post {recvs : List ℕ} {rx : List GsiRx} (h : rx.length ≤ recvs.length) (wrId : ℕ) :
    gsiRqes (recvs ++ [wrId]) rx = gsiRqes recvs rx ++ [⟨wrId, none⟩] := by
  unfold gsiRqes
  rw [mapIdx_append, mapIdx_singleton, zero_add, getElem?_eq_none h]

theorem gsiRqes_complete {recvs : List ℕ} {rx : List GsiRx} (h : rx.length < recvs.length)
    (d : GsiRx) :
    gsiRqes recvs (rx ++ [d]) = (gsiRqes recvs rx).set rx.length ⟨recvs[rx.length], some d⟩ := by
  unfold gsiRqes
  refine ext_getElem ?_ fun i hi hi' => ?_
  · rw [length_set, length_mapIdx, length_mapIdx]
  · rw [getElem_set, getElem_mapIdx, getElem_mapIdx]
    rcases lt_trichotomy rx.length i with hlt | rfl | hlt
    · rw [if_neg hlt.ne, getElem?_eq_none hlt.le, getElem?_eq_none (by
        rw [length_append]
        exact hlt)]
    · rw [if_pos rfl, getElem?_concat_length]
    · rw [if_neg hlt.ne', getElem?_append_left hlt]

/-- Where the QP stands: `g` sends are completed, `c` sends and `d` receives are reported. -/
structure GsiAt (s : GsiSys) (g c d : ℕ) : Prop where
  sq : RingAt s.sq s.sends g c
  rq : RingAt s.rq (gsiRqes s.recvs s.rx) s.rx.length d
  txPackets : g + s.txPackets = s.sends.length
  rxBuffers : s.rx.length + s.rxBuffers = s.recvs.length
  sendWcs : s.sendWcs = s.sends.take c
  recvWcs : s.recvWcs = (gsiRqes s.recvs s.rx).take d

namespace GsiAt

variable {s : GsiSys} {g c d : ℕ}

theorem start (maxSendWr maxRecvWr : ℕ) : GsiAt (.create maxSendWr maxRecvWr) 0 0 0 :=
  ⟨.start _ _, .start _ _, rfl, rfl, rfl, rfl⟩

section

variable (h : GsiAt s g c d)

include h

theorem rx_le : s.rx.length ≤ s.recvs.length := (le_add_right _ _).trans_eq h.rxBuffers

theorem stored (wrId : ℕ) : s.sendWcs = (s.sends ++ [wrId]).take c := by
  rw [take_append_of_le_length (h.sq.reported_le.trans h.sq.completed_le)]
  exact h.sendWcs

theorem postSend {wrId : ℕ} {next : List ℕ} {ans : GsiTxAnswer}
    (ho : s.Orderly (.postSend wrId next ans)) :
    ∃ g', GsiAt (s.step (.postSend wrId next ans)) g' c d := by
  have htx := h.txPackets
  have hnone : GsiAt { s with sends := s.sends ++ [] } g c d := by
    rw [append_nil]
    exact h
  simp only [GsiSys.Orderly] at ho
  simp only [GsiSys.step, GsiSys.qedrGsiPostSend]
  by_cases hrecov : s.recovInProg = true
  · -- the send is completed at once, after those that LL2 still has
    rw [if_pos hrecov] at ho ⊢
    obtain ⟨hfull, rfl⟩ := ho
    have hlt : g < (s.sends ++ [wrId]).length := by
      rw [length_append, length_singleton]
      omega
    refine ⟨g + 1, (h.sq.post hfull wrId).complete hlt, h.rq, ?_, h.rxBuffers, h.stored wrId,
      h.recvWcs⟩
    change g + 1 + s.txPackets = (s.sends ++ [wrId]).length
    rw [length_append, length_singleton]
    omega
  · rw [if_neg hrecov] at ho ⊢
    cases ans with
    | invalid =>
      simp only [gsiAccepted, Nat.sub_self, take_zero]
      exact ⟨g, hnone⟩
    | taken =>
      have hacc : gsiAccepted (wrId :: next) next = [wrId] := by simp [gsiAccepted]
      simp only [hacc]
      refine ⟨g, h.sq.post (ho.1 rfl) wrId, h.rq, ?_, h.rxBuffers, h.stored wrId, h.recvWcs⟩
      change g + (s.txPackets + 1) = (s.sends ++ [wrId]).length
      rw [length_append, length_singleton]
      omega
    | headerFailed | payloadFailed =>
      obtain rfl := ho.2 (by simp)
      exact ⟨g, hnone⟩

theorem postRecv (wrId : ℕ) (hfull : ¬s.rq.IsFull) :
    GsiAt { s with
      rq := s.rq.post ⟨wrId, none⟩, rxBuffers := s.rxBuffers + 1
      recvs := s.recvs ++ [wrId] } g c d := by
  have hle := h.rq.reported_le.trans h.rq.completed_le
  have hpost := h.rq.post hfull ⟨wrId, none⟩
  have hrx := h.rxBuffers
  rw [← gsiRqes_post h.rx_le] at hpost
  refine { h with rq := hpost, rxBuffers := ?_, recvWcs := ?_ }
  · dsimp only
    rw [length_append, length_singleton]
    omega
  · rw [gsiRqes_post h.rx_le, take_append_of_le_length hle]
    exact h.recvWcs

omit h in
/-- The loop neither reads nor writes the history, and comes to a later request. -/
theorem postRecv_recvs (s : GsiSys) (recvs : List ℕ) (wrs : List GsiRecvWr) :
    { s with recvs := recvs }.qedrGsiPostRecv wrs =
        ({ (s.qedrGsiPostRecv wrs).1 with recvs := recvs }, (s.qedrGsiPostRecv wrs).2) ∧
      (s.qedrGsiPostRecv wrs).2.length ≤ wrs.length := by
  induction wrs generalizing s with
  | nil => exact ⟨rfl, le_rfl⟩
  | cons wr next ih =>
    simp only [GsiSys.qedrGsiPostRecv]
    split
    · obtain ⟨h₁, h₂⟩ :=
        ih { s with rq := s.rq.post ⟨wr.wrId, none⟩, rxBuffers := s.rxBuffers + 1 }
      exact ⟨h₁, h₂.trans (le_succ _)⟩
    · exact ⟨rfl, le_rfl⟩

/-- **The receives before `*bad_wr` are stored**, and no others. -/
theorem postRecvs {wrs : List GsiRecvWr} (ho : GsiSys.RecvRoom s.rq wrs) :
    GsiAt (s.step (.postRecv wrs)) g c d := by
  induction wrs generalizing s with
  | nil =>
    simp only [GsiSys.step, GsiSys.qedrGsiPostRecv, gsiAccepted, take_nil, map_nil, append_nil]
    exact h
  | cons wr next ih =>
    cases htaken : wr.taken with
    | false =>
      simp only [GsiSys.step, GsiSys.qedrGsiPostRecv, htaken, Bool.false_eq_true, if_false,
        gsiAccepted, Nat.sub_self, take_zero, map_nil, append_nil]
      exact h
    | true =>
      obtain ⟨hfull, hroom⟩ := ho htaken
      have hrest := ih (h.postRecv wr.wrId hfull) hroom
      obtain ⟨hloop, hle⟩ := postRecv_recvs
        { s with rq := s.rq.post ⟨wr.wrId, none⟩, rxBuffers := s.rxBuffers + 1 }
        (s.recvs ++ [wr.wrId]) next
      simp only [GsiSys.step, hloop] at hrest
      simp only [GsiSys.step, GsiSys.qedrGsiPostRecv, htaken, if_true]
      rw [gsiAccepted, length_cons, Nat.succ_sub hle, take_succ_cons, map_cons]
      rw [append_assoc] at hrest
      exact hrest

theorem txComplete (hpos : 0 < s.txPackets) : GsiAt s.completeTxPacket (g + 1) c d := by
  have htx := h.txPackets
  refine ⟨h.sq.complete (by omega), h.rq, ?_, h.rxBuffers, h.sendWcs, h.recvWcs⟩
  change g + 1 + (s.txPackets - 1) = s.sends.length
  omega

theorem rxComplete (hpos : 0 < s.rxBuffers) (rx : GsiRx) : GsiAt (s.completeRxPacket rx) g c d := by
  have hrx := h.rxBuffers
  have hlt : s.rx.length < s.recvs.length := by omega
  have hlen : s.rx.length < (gsiRqes s.recvs s.rx).length := by rwa [length_gsiRqes]
  have hle := h.rq.reported_le
  have hentry : s.rq.ids s.rq.gsiCons = ⟨s.recvs[s.rx.length], none⟩ := by
    have hholds := h.rq.holds s.rx.length hle hlen
    rw [← h.rq.gsiCons, gsiRqes, getElem?_mapIdx, getElem?_eq_getElem hlt,
      getElem?_eq_none le_rfl, Option.map_some, Option.some_inj] at hholds
    exact hholds.symm
  have hset := (h.rq.mark hlen ⟨s.recvs[s.rx.length], some rx⟩)
  rw [← gsiRqes_complete hlt] at hset
  have hdone := hset.complete (by rwa [length_gsiRqes])
  unfold GsiSys.completeRxPacket
  rw [hentry]
  have hlength : (s.rx ++ [rx]).length = s.rx.length + 1 := length_append
  refine ⟨h.sq, ?_, h.txPackets, ?_, h.sendWcs, ?_⟩
  · rw [hlength]
    exact hdone
  · rw [hlength]
    dsimp only
    omega
  · dsimp only
    rw [gsiRqes_complete hlt, take_set_of_le hle]
    exact h.recvWcs

theorem pollRecv : ∃ d', GsiAt s.pollRecv g c d' ∧
    d' = min (d + 1) s.rx.length ∧ s.pollRecv.rx = s.rx ∧
    s.pollRecv.reported.length = s.reported.length + (d' - d) := by
  have hle := h.rq.reported_le
  unfold GsiSys.pollRecv
  by_cases heq : s.rq.cons = s.rq.gsiCons
  · have hd := h.rq.cons_eq_iff.1 heq
    rw [if_pos heq]
    exact ⟨d, h, by omega, rfl, by omega⟩
  · have hlt : d < s.rx.length := hle.lt_of_ne fun hd => heq (h.rq.cons_eq_iff.2 hd)
    obtain ⟨hget, hnext⟩ := h.rq.report hlt
    rw [if_neg heq]
    refine ⟨d + 1, ⟨h.sq, hnext, h.txPackets, h.rxBuffers, ?_, ?_⟩, by omega, rfl, ?_⟩
    · change filterMap _ (s.reported ++ [_]) = _
      rw [filterMap_append]
      exact (append_nil _).trans h.sendWcs
    · change filterMap _ (s.reported ++ [_]) = _
      rw [filterMap_append, take_add_one, hget, ← h.recvWcs]
      rfl
    · dsimp only
      rw [length_append, length_singleton]
      omega

theorem pollSend : ∃ c', GsiAt s.pollSend g c' d ∧ c' = min (c + 1) g ∧
    s.pollSend.reported.length = s.reported.length + (c' - c) := by
  have hle := h.sq.reported_le
  unfold GsiSys.pollSend
  by_cases heq : s.sq.cons = s.sq.gsiCons
  · have hc := h.sq.cons_eq_iff.1 heq
    rw [if_pos heq]
    exact ⟨c, h, by omega, by omega⟩
  · have hlt : c < g := hle.lt_of_ne fun hc => heq (h.sq.cons_eq_iff.2 hc)
    obtain ⟨hget, hnext⟩ := h.sq.report hlt
    rw [if_neg heq]
    refine ⟨c + 1, ⟨hnext, h.rq, h.txPackets, h.rxBuffers, ?_, ?_⟩, by omega, ?_⟩
    · change filterMap _ (s.reported ++ [_]) = _
      rw [filterMap_append, take_add_one, hget, ← h.sendWcs]
      rfl
    · change filterMap _ (s.reported ++ [_]) = _
      rw [filterMap_append]
      exact (append_nil _).trans h.recvWcs
    · dsimp only
      rw [length_append, length_singleton]
      omega

theorem pollRecvs (n : ℕ) : ∃ d', GsiAt (GsiSys.pollRecv^[n] s) g c d' ∧
    d' = min (d + n) s.rx.length ∧
    (GsiSys.pollRecv^[n] s).reported.length = s.reported.length + (d' - d) := by
  induction n generalizing s d with
  | zero =>
    have hle := h.rq.reported_le
    exact ⟨d, h, by omega, by rw [Nat.sub_self]; rfl⟩
  | succ n ih =>
    have hle := h.rq.reported_le
    obtain ⟨d₁, h₁, hd₁, hrx, hlen₁⟩ := h.pollRecv
    obtain ⟨d₂, h₂, hd₂, hlen₂⟩ := ih h₁
    rw [hrx] at hd₂
    rw [iterate_succ_apply]
    exact ⟨d₂, h₂, by omega, by omega⟩

theorem pollSends (n : ℕ) : ∃ c', GsiAt (GsiSys.pollSend^[n] s) g c' d ∧ c' = min (c + n) g ∧
    (GsiSys.pollSend^[n] s).reported.length = s.reported.length + (c' - c) := by
  induction n generalizing s c with
  | zero =>
    have hle := h.sq.reported_le
    exact ⟨c, h, by omega, by rw [Nat.sub_self]; rfl⟩
  | succ n ih =>
    have hle := h.sq.reported_le
    obtain ⟨c₁, h₁, hc₁, hlen₁⟩ := h.pollSend
    obtain ⟨c₂, h₂, hc₂, hlen₂⟩ := ih h₁
    rw [iterate_succ_apply]
    exact ⟨c₂, h₂, by omega, by omega⟩

/-- **A call** reports what is completed, as far as the array goes. -/
theorem poll (n : ℕ) : ∃ c' d', GsiAt (s.qedrGsiPollCq n) g c' d' ∧
    (s.qedrGsiPollCq n).reported.length =
      s.reported.length + min n (s.rx.length - d + (g - c)) := by
  have hled := h.rq.reported_le
  have hlec := h.sq.reported_le
  obtain ⟨d', h₁, hd', hlen₁⟩ := h.pollRecvs n
  obtain ⟨c', h₂, hc', hlen₂⟩ :=
    h₁.pollSends (n - ((GsiSys.pollRecv^[n] s).reported.length - s.reported.length))
  refine ⟨c', d', h₂, hlen₂.trans ?_⟩
  omega

theorem step {e : GsiEvent} (he : s.StepOk e) : ∃ g' c' d', GsiAt (s.step e) g' c' d' := by
  cases e with
  | recov inProg => exact ⟨g, c, d, { h with }⟩
  | postSend wrId next ans =>
    obtain ⟨g', h'⟩ := h.postSend he.2
    exact ⟨g', c, d, h'⟩
  | postRecv wrs => exact ⟨g, c, d, h.postRecvs he.2⟩
  | txComplete => exact ⟨g + 1, c, d, h.txComplete he.1⟩
  | rxComplete rx => exact ⟨g, c, d, h.rxComplete he.1 rx⟩
  | pollRecv =>
    obtain ⟨d', h', -⟩ := h.pollRecv
    exact ⟨g, c, d', h'⟩
  | pollSend =>
    obtain ⟨c', h', -⟩ := h.pollSend
    exact ⟨g, c', d, h'⟩
  | poll n =>
    obtain ⟨c', d', h', -⟩ := h.poll n
    exact ⟨g, c', d', h'⟩

end

end GsiAt

end FastLinQ.Qedr
