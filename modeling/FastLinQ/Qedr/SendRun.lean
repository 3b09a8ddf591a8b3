import FastLinQ.Qedr.Elems
import FastLinQ.Qedr.Wqe

/-!
# Runs of a send queue, and rejected requests

A run posts WRs on an SQ and completes them in order, by calls of `process_req`. The history
records, for each accepted WR, the elements it was built in and the sizes that were written for it,
and for each completed WR the elements that were consumed.

A WR that is rejected after it was given elements puts the producer of the chain back to the value
of the doorbell. That value counts WRs, where the index of the chain counts elements. So the queue
is as it was in special histories only (`rejected_unchanged_iff`).
-/

namespace FastLinQ.Qedr

open Qed Completion Bool Sq List

/-! ## One post -/

namespace Sq

variable {sq : Sq} {wr : IbSendWr}

/-- `qedr_can_post_send` lets the WR pass. -/
def Admits (sq : Sq) (wr : IbSendWr) : Prop := sq.wq.maxWr ≠ 0 ∧ sq.qedrCanPostSend wr = true
  deriving Decidable

theorem post_of_not_admits (h : ¬sq.Admits wr) :
    (∃ e, (sq.qedrPostSend wr).rc = .error e) ∧ (sq.qedrPostSend wr).sq = sq ∧
      (sq.qedrPostSend wr).elems = [] := by
  unfold qedrPostSend
  by_cases hmax : sq.wq.maxWr = 0
  · rw [if_pos hmax]
    exact ⟨⟨_, rfl⟩, rfl, rfl⟩
  · have hcan : (!sq.qedrCanPostSend wr) = true := by
      rw [not_eq_true', eq_false_iff]
      exact fun hcan => h ⟨hmax, hcan⟩
    rw [if_neg hmax, if_pos hcan]
    exact ⟨⟨_, rfl⟩, rfl, rfl⟩

theorem post_of_admits (h : sq.Admits wr) :
    sq.qedrPostSend wr =
      if sq.malformed wr then
        ⟨.error .einval, sq.restore (sq.build wr) wr (qedChainProduce sq.wq.pbl).1,
          (sq.build wr).elems, (sq.build wr).wqeSize⟩
      else ⟨.ok (), sq.accept (sq.build wr) wr, (sq.build wr).elems, (sq.build wr).wqeSize⟩ := by
  have hcan : ¬(!sq.qedrCanPostSend wr) = true := by rw [h.2]; nofun
  unfold qedrPostSend
  rw [if_neg h.1, if_neg hcan]
  dsimp only
  rw [(sq.build_spec wr).2.2.1]

theorem post_ok_iff :
    (sq.qedrPostSend wr).rc = .ok () ↔ sq.Admits wr ∧ sq.malformed wr = false := by
  by_cases h : sq.Admits wr
  · rw [post_of_admits h]
    cases sq.malformed wr with
    | true => exact iff_of_false nofun fun hf => nomatch hf.2
    | false => exact iff_of_true rfl ⟨h, rfl⟩
  · obtain ⟨⟨e, he⟩, -, -⟩ := post_of_not_admits h
    rw [he]
    exact iff_of_false nofun fun hf => h hf.1

theorem post_elems (h : sq.Admits wr) :
    (sq.qedrPostSend wr).elems = produceList (1 + sq.moreElems wr) sq.wq.pbl := by
  rw [post_of_admits h, ← (sq.build_spec wr).2.1]
  split <;> rfl

/-- The elements of a post do not depend on the shadow array. -/
theorem post_elems_congr (ids : ℕ → WqeWrId) (prev : ℕ) :
    (qedrPostSend { sq with wqeWrId := ids, prevWqeSize := prev } wr).elems =
      (sq.qedrPostSend wr).elems := by
  by_cases h : sq.Admits wr
  · have h' : ({ sq with wqeWrId := ids, prevWqeSize := prev } : Sq).Admits wr := h
    rw [post_elems h, post_elems h']
    rfl
  · have h' : ¬({ sq with wqeWrId := ids, prevWqeSize := prev } : Sq).Admits wr := h
    rw [(post_of_not_admits h).2.2, (post_of_not_admits h').2.2]

end Sq

/-! ## Runs -/

/-- An accepted WR: its elements, and the size in its header and in its shadow entry. -/
structure SqPosted where
  elems : List ℕ
  wqeSize : ℕ
  entry : WqeWrId
  deriving DecidableEq, Repr

structure SqRun where
  sq : Sq
  posted : List SqPosted
  done : List WrDone

inductive SqEvent
  | post (wr : IbSendWr)
  /-- A call of `process_req` after the device has completed `k` more WRs than were gone through. -/
  | complete (k numEntries : ℕ) (status : IbWcStatus) (force : Bool)
  deriving DecidableEq, Repr

namespace SqRun

def start (sq : Sq) : SqRun := ⟨sq, [], []⟩

def step (s : SqRun) : SqEvent → SqRun
  | .post wr =>
    let r := s.sq.qedrPostSend wr
    match r.rc with
    | .ok () =>
      { s with
        sq := r.sq
        posted := s.posted ++ [⟨r.elems, r.wqeSize, r.sq.wqeWrId s.sq.wq.prod⟩] }
    | .error _ => { s with sq := r.sq }
  | .complete k numEntries status force =>
    let r := s.sq.processReq 0 numEntries ((s.done.length + k) % 2 ^ 16) status force
    { s with sq := r.1, done := s.done ++ r.2 }

end SqRun

/-! ## The chain in any history -/

/-- A wide ring whose producer is in range. -/
structure Wide (base : ℕ → ℕ) (c : Chain) : Prop where
  ring : WideRing c base 8
  prod : SideOk c c.prod

namespace Wide

variable {base : ℕ → ℕ} {c : Chain} (h : Wide base c)

include h

theorem produceN (n : ℕ) : Wide base (Qed.produceN n c) := by
  rw [produceN_eq]
  exact ⟨h.ring, (nextSide_iterate h.ring.ring h.ring.mode h.prod n).1⟩

theorem consumeN (n : ℕ) : Wide base (Qed.consumeN n c) := by
  rw [consumeN_eq]
  exact ⟨h.ring, h.prod⟩

theorem setProd (idx elem : ℕ) : Wide base (qedChainSetProd c idx elem) :=
  ⟨h.ring, SideOk.set h.ring.ring h.ring.mode c.prod idx elem⟩

end Wide

/-- What every step keeps of an SQ. -/
def Sq.Kept (base : ℕ → ℕ) (sq : Sq) : Prop := Wide base sq.wq.pbl ∧ sq.wq.dbValue < 2 ^ 16

theorem SqRun.kept_step {base : ℕ → ℕ} {s : SqRun} (h : s.sq.Kept base) (e : SqEvent) :
    (s.step e).sq.Kept base := by
  cases e with
  | post wr =>
    have hpost : (s.sq.qedrPostSend wr).sq.Kept base := by
      by_cases hadm : s.sq.Admits wr
      · have hbuild : Wide base (s.sq.build wr).pbl := by
          rw [(s.sq.build_spec wr).1]
          exact h.1.produceN _
        rw [post_of_admits hadm]
        split
        · exact ⟨hbuild.setProd _ _, h.2⟩
        · exact ⟨hbuild, Nat.mod_lt _ (Nat.two_pow_pos 16)⟩
      · rw [(post_of_not_admits hadm).2.1]
        exact h
    unfold step
    dsimp only
    split <;> exact hpost
  | complete k numEntries status force =>
    exact drain_invariant (P := Kept base) (fun sq h => ⟨h.1.consumeN _, h.2⟩) h _ _

/-! ## The start -/

variable {sq : Sq}

theorem createSq_ok {env : DmaEnv} {dev : QedrDev} {attrs : QpInitAttr} {extPbl : Option DmaBlock}
    (h : qedrCreateSq env dev attrs extPbl = .ok sq) :
    qedrCheckQpAttrs dev attrs = true ∧
      ∃ pbl, qedChainAlloc env (sqChainParams attrs extPbl) = .ok pbl ∧
        sq = .fresh dev attrs pbl := by
  unfold qedrCreateSq at h
  split at h
  · next hcheck => exact ⟨hcheck, exists_of_map_ok h⟩
  · exact nomatch h

/-! ## Rejected requests -/

/-- The send queue is as if the request had not been posted: the producer of the chain, the counters
and the doorbell value are the same, and the next request is built in the same elements. -/
structure Sq.Unchanged (sq sq' : Sq) : Prop where
  prodIdx : sq'.wq.pbl.prod.idx = sq.wq.pbl.prod.idx
  prodElem : sq'.wq.pbl.prod.elem = sq.wq.pbl.prod.elem
  prodPageIdx : sq'.wq.pbl.prod.pageIdx = sq.wq.pbl.prod.pageIdx
  prevWqeSize : sq'.prevWqeSize = sq.prevWqeSize
  prod : sq'.wq.prod = sq.wq.prod
  dbValue : sq'.wq.dbValue = sq.wq.dbValue
  next : ∀ wr, (sq'.qedrPostSend wr).elems = (sq.qedrPostSend wr).elems

variable {wr : IbSendWr}

/-- Few elements are produced before a WR is rejected. -/
theorem Sq.moreElems_of_malformed (h : sq.malformed wr = true) : sq.moreElems wr ≤ 1 := by
  unfold moreElems
  split
  · exact Nat.zero_le _
  · next hs =>
    rw [malformed, eq_false_iff.2 hs, Bool.false_or, and_eq_true, decide_eq_true_iff] at h
    obtain ⟨hin, hlong⟩ := h
    have hdata : wr.dataElems wr.inlined sq.maxInlineData = 0 := by
      rw [IbSendWr.dataElems, if_pos hin, if_pos (Or.inl hlong)]
    rw [hdata]
    unfold IbSendWr.inlined at hin
    split at hin
    case h_6 => cases hin
    all_goals next hop => rw [hop]

/-- What a rejection makes of the chain. -/
theorem Sq.restore_chain (hadm : sq.Admits wr) (hbad : sq.malformed wr = true) :
    (sq.qedrPostSend wr).sq.wq.pbl =
      qedChainSetProd (produceN (1 + sq.moreElems wr) sq.wq.pbl) sq.wq.dbValue
        (qedChainProduce sq.wq.pbl).1 := by
  rw [post_of_admits hadm, if_pos hbad, ← (sq.build_spec wr).1]
  rfl

/-- In any history, a WR that is rejected after it was given elements leaves the queue unchanged
exactly if the chain's producer index is the value of the doorbell, and its pointer is at the
element that comes next. -/
theorem Sq.unchanged_iff {base : ℕ → ℕ} (h : Wide base sq.wq.pbl) (hdb : sq.wq.dbValue < 2 ^ 16)
    (hadm : sq.Admits wr) (hbad : sq.malformed wr = true) :
    sq.Unchanged (sq.qedrPostSend wr).sq ↔
      sq.wq.dbValue = sq.wq.pbl.prod.idx ∧ (qedChainProduce sq.wq.pbl).1 = sq.wq.pbl.prod.elem := by
  have hcap := h.ring.le_capacity
  have hmore := moreElems_of_malformed hbad
  have hchain := restore_chain hadm hbad
  constructor
  · intro hun
    have hidx := hun.prodIdx
    have helem := hun.prodElem
    rw [hchain, produceN_eq] at hidx helem
    refine ⟨?_, helem⟩
    have hwrap : sq.wq.pbl.wrap sq.wq.dbValue = sq.wq.dbValue := by
      rw [ChainShape.wrap, h.ring.cnt]
      exact Nat.mod_eq_of_lt (hdb.trans (by decide))
    exact hwrap.symm.trans hidx
  · rintro ⟨hidx, helem⟩
    rw [hidx, h.ring.setProd_produceN h.prod (by omega), helem] at hchain
    rw [post_of_admits hadm, if_pos hbad] at hchain ⊢
    change qedChainSetProd (sq.build wr).pbl sq.wq.dbValue
      (qedChainProduce sq.wq.pbl).1 = _ at hchain
    rw [restore, hchain]
    exact ⟨rfl, rfl, rfl, rfl, rfl, rfl, fun wr' => post_elems_congr _ _⟩

/-- **Rejected requests.** In every history of posts and completions, a WR that is rejected after it
was given elements leaves the send queue unchanged exactly if the chain's producer index is the
value of the doorbell, and its pointer is at the element that comes next. The index counts elements
and the doorbell counts WRs; and the pointer is not at the next element where the producer stands at
the end of a page. -/
theorem rejected_unchanged_iff {env : DmaEnv} {dev : QedrDev} {attrs : QpInitAttr}
    {extPbl : Option DmaBlock} {sq : Sq} (hcreate : qedrCreateSq env dev attrs extPbl = .ok sq)
    (hd : env.Disjoint QED_CHAIN_PAGE_SIZE (sqChainParams attrs extPbl).pageCnt)
    (events : List SqEvent) (wr : IbSendWr)
    (hrejected : ((events.foldl SqRun.step (.start sq)).sq.qedrPostSend wr).rc ≠ .ok ())
    (hstarted : ((events.foldl SqRun.step (.start sq)).sq.qedrPostSend wr).elems ≠ []) :
    let s := (events.foldl SqRun.step (.start sq)).sq
    s.Unchanged (s.qedrPostSend wr).sq ↔
      s.wq.dbValue = s.wq.pbl.prod.idx ∧ (qedChainProduce s.wq.pbl).1 = s.wq.pbl.prod.elem := by
  intro s
  have hkept : s.Kept env.addr := by
    refine foldlRecOn events SqRun.step (motive := fun r => r.sq.Kept env.addr) ?_
      fun r hr e _ => SqRun.kept_step hr e
    obtain ⟨-, pbl, hpbl, rfl⟩ := createSq_ok hcreate
    have hchain := wqChain_of_alloc hpbl hd
    exact ⟨⟨hchain.ring, hchain.prod.sideOk hchain.ring.ring⟩, Nat.two_pow_pos 16⟩
  have hadm : s.Admits wr := by
    by_contra hnot
    exact hstarted (post_of_not_admits hnot).2.2
  have hbad : s.malformed wr = true := by
    by_contra hgood
    exact hrejected (post_ok_iff.2 ⟨hadm, eq_false_iff.2 hgood⟩)
  exact unchanged_iff hkept.1 hkept.2 hadm hbad

/-- A RoCE device with the default module parameters. -/
def roceDev : QedrDev := ⟨false, 0, 3, by decide⟩

/-- A QP with 100 WRs on either side. -/
def hundredWrs : QpInitAttr := ⟨100, 100, 4, 4, false⟩

/-- A WR with `n` SGEs of 64 bytes. -/
def plainWr (opcode : IbWrOpcode) (n : ℕ) : IbSendWr := ⟨7, opcode, replicate n 64, true, false⟩

/-- After invalidations only, which take one element each, the producer is put back where it was. -/
theorem rejected_unchanged_localInv :
    ∃ sq, qedrCreateSq (.backToBack 0x10000 QED_CHAIN_PAGE_SIZE) roceDev hundredWrs none = .ok sq ∧
      let s := ([.post (plainWr .localInv 0)].foldl SqRun.step (.start sq)).sq
      s.Unchanged (s.qedrPostSend (plainWr (.other 99) 0)).sq := by
  have hc : qedrCreateSq (.backToBack 0x10000 QED_CHAIN_PAGE_SIZE) roceDev hundredWrs none =
    .ok _ := rfl
  refine ⟨_, hc, ?_⟩
  exact (rejected_unchanged_iff hc (DmaEnv.backToBack_disjoint _ _ _)
    [.post (plainWr .localInv 0)] (plainWr (.other 99) 0) (by decide +kernel)
    (by decide +kernel)).2 (by decide +kernel)

/-- After a send of three elements a rejected WR leaves the producer index at 1. After 85 of them,
which end one element before the end of a page, the next send is built behind the page and not on
the next one. -/
theorem rejected_changes_producer :
    ∃ sq, qedrCreateSq (.backToBack 0x10000 0x2000) roceDev hundredWrs none = .ok sq ∧
      (let s := ([.post (plainWr .send 1)].foldl SqRun.step (.start sq)).sq;
        s.wq.pbl.prod.idx = 3 ∧ (s.qedrPostSend (plainWr (.other 99) 0)).sq.wq.pbl.prod.idx = 1) ∧
      let s := ((replicate 85 (.post (plainWr .send 1))).foldl SqRun.step (.start sq)).sq;
      (s.qedrPostSend (plainWr .send 1)).elems = [0x12ff0, 0x14000, 0x14010] ∧
        ((s.qedrPostSend (plainWr (.other 99) 0)).sq.qedrPostSend (plainWr .send 1)).elems =
          [0x12ff0, 0x13000, 0x13010] := by
  refine ⟨_, rfl, ?_⟩
  decide +kernel

end FastLinQ.Qedr
