import FastLinQ.Qedr.SendRun

/-!
# The elements of a send queue

In a run in which all accepted WRs are `Fitting`, and in which no WR is rejected after it was given
elements while the doorbell and the chain's index differ, each completed WR gives back the elements
it was built in, and all elements in use are different.
-/

namespace FastLinQ.Qedr

open Qed Completion List Bool SqRun Sq Nat

/-! ## What a step does -/

/-- The three counts of an accepted WR agree, and are within the limit. -/
structure SqPosted.Sized (p : SqPosted) : Prop where
  header : p.elems.length = p.wqeSize
  shadow : p.elems.length = p.entry.wqeSize
  le : p.elems.length ≤ QEDR_MAX_SQE_ELEMENTS_PER_SQE

def Sq.record (sq : Sq) (wr : IbSendWr) : SqPosted where
  elems := (sq.build wr).elems
  wqeSize := (sq.build wr).wqeSize
  entry := { sq.shadow (sq.build wr) wr with wrId := wr.wrId }

namespace SqRun

variable {s : SqRun} {wr : IbSendWr}

theorem step_post_refused (h : ¬s.sq.Admits wr) : s.step (.post wr) = s := by
  obtain ⟨⟨e, he⟩, hsq, -⟩ := post_of_not_admits h
  unfold step
  dsimp only
  rw [he]
  rw [hsq]

theorem step_post_rejected (h : s.sq.Admits wr) (hbad : s.sq.malformed wr = true) :
    s.step (.post wr) =
      { s with sq := s.sq.restore (s.sq.build wr) wr (qedChainProduce s.sq.wq.pbl).1 } := by
  have hpost := post_of_admits h
  rw [if_pos hbad] at hpost
  unfold step
  dsimp only
  rw [hpost]

theorem step_post_accepted (h : s.sq.Admits wr) (hgood : s.sq.malformed wr = false) :
    s.step (.post wr) =
      { s with
        sq := s.sq.accept (s.sq.build wr) wr
        posted := s.posted ++ [s.sq.record wr] } := by
  have hpost := post_of_admits h
  rw [if_neg (eq_false_iff.1 hgood)] at hpost
  have hentry : (s.sq.accept (s.sq.build wr) wr).wqeWrId s.sq.wq.prod = (s.sq.record wr).entry :=
    Function.update_self ..
  unfold step
  dsimp only
  rw [hpost]
  rw [hentry]
  rfl

def turn (s : SqRun) (status : IbWcStatus) (force : Bool) : SqRun :=
  { s with
    sq := (s.sq.reqTurn 0 status force).1
    done := s.done ++ [(s.sq.reqTurn 0 status force).2] }

/-- The WRs that are posted and not completed. -/
def inUse (s : SqRun) : List SqPosted := s.posted.drop s.done.length

end SqRun

/-! ## Limits -/

structure Sq.Limits (sq : Sq) : Prop where
  maxSges : sq.wq.maxSges ≤ 4
  maxInlineData : sq.maxInlineData ≤ 256
  maxWr : sq.wq.maxWr < 2 ^ 16

theorem SqRun.limits_step {s : SqRun} (h : s.sq.Limits) (e : SqEvent) : (s.step e).sq.Limits := by
  cases e with
  | post wr =>
    by_cases hadm : s.sq.Admits wr
    · cases hbad : s.sq.malformed wr with
      | true =>
        rw [step_post_rejected hadm hbad]
        exact { h with }
      | false =>
        rw [step_post_accepted hadm hbad]
        exact { h with }
    · rw [step_post_refused hadm]
      exact h
  | complete k numEntries status force =>
    exact drain_invariant (P := Limits) (fun sq h => { h with }) h _ _

/-- The size of an accepted WR is right exactly if the WR is fitting. -/
theorem Sq.sized_record_iff {sq : Sq} {wr : IbSendWr} (h : sq.Limits) (hadm : sq.Admits wr)
    (hgood : sq.malformed wr = false) : (sq.record wr).Sized ↔ wr.Fitting := by
  obtain ⟨-, helems, -, hsize⟩ := sq.build_spec wr
  have hsup : sq.unsupported wr = false := by
    rw [malformed, or_eq_false_iff] at hgood
    exact hgood.1
  obtain ⟨hheader, hstored⟩ := hsize hsup
  have hlen : (sq.record wr).elems.length = 1 + sq.moreElems wr := by
    rw [record, helems, length_produceList]
  have hentry : (sq.record wr).entry.wqeSize = sq.headerSize wr := by
    change (if (sq.build wr).stored then _ else _) = _
    rw [hstored, if_pos rfl, hheader]
  have hsge : wr.sgList.length ≤ 4 := by
    obtain ⟨-, hcan⟩ := hadm
    simp only [qedrCanPostSend, and_eq_true, decide_eq_true_iff] at hcan
    exact hcan.1.2.trans h.maxSges
  rw [← sizes_agree_iff hgood hsge h.maxInlineData, ← hlen]
  constructor
  · exact fun hs => ⟨hs.shadow.trans hentry, hs.le⟩
  · exact fun hs => ⟨hs.1.trans hheader.symm, hs.1.trans hentry.symm, hs.2⟩

/-! ## The invariant -/

structure SqInv (base : ℕ → ℕ) (s : SqRun) : Prop where
  limits : s.sq.Limits
  queue : QueueAt s.sq.wq s.sq.wqeWrId (s.posted.map SqPosted.entry) s.done.length
  room : s.sq.wq.maxWr ≠ 0 → s.posted.length < s.done.length + s.sq.wq.maxWr
  sized : ∀ p ∈ s.posted, p.Sized
  elems : ElemsAt base s.sq.wq.pbl (s.posted.map SqPosted.elems) s.done.length
  given : s.done.map WrDone.elems = (s.posted.map SqPosted.elems).take s.done.length

namespace SqInv

variable {base : ℕ → ℕ} {s : SqRun} {wr : IbSendWr} (h : SqInv base s)

include h

theorem le : s.done.length ≤ s.posted.length := by
  have hle := h.queue.le
  rwa [length_map] at hle

/-- What an admitted WR finds: the shadow array keeps one entry free, and there is room for the
longest WQE. -/
theorem room_of_admits (hadm : s.sq.Admits wr) :
    s.posted.length + 1 < s.done.length + s.sq.wq.maxWr ∧
      QEDR_MAX_SQE_ELEMENTS_PER_SQE ≤ qedChainGetElemLeftU32 s.sq.wq.pbl := by
  obtain ⟨hmax, hcan⟩ := hadm
  have hroom := h.room hmax
  simp only [qedrCanPostSend, qedrWqIsFull, and_eq_true, decide_eq_true_iff,
    not_eq_true', beq_eq_false_iff_ne] at hcan
  obtain ⟨⟨hfull, -⟩, hleft⟩ := hcan
  have hnext := h.queue.room_of_not_full (by rwa [length_map]) hfull
  rw [length_map] at hnext
  exact ⟨hnext, hleft⟩

theorem accepted (hadm : s.sq.Admits wr) (hgood : s.sq.malformed wr = false) (hfit : wr.Fitting) :
    SqInv base (s.step (.post wr)) := by
  obtain ⟨hroom, hspace⟩ := h.room_of_admits hadm
  have hlimits := limits_step h.limits (.post wr)
  obtain ⟨hpbl, helems, -, -⟩ := s.sq.build_spec wr
  have hsized := (sized_record_iff h.limits hadm hgood).2 hfit
  have hlen : (s.sq.record wr).elems.length = 1 + s.sq.moreElems wr := by
    rw [record, helems, length_produceList]
  have hle : s.done.length ≤ (s.posted.map SqPosted.elems).length := by
    rw [length_map]
    exact h.le
  rw [step_post_accepted hadm hgood] at hlimits ⊢
  refine ⟨hlimits, ?_, fun _ => ?_,
    forall_mem_append.2 ⟨h.sized, forall_mem_singleton.2 hsized⟩, ?_, ?_⟩
  · rw [map_append]
    have hpost := h.queue.post (by rw [length_map]; omega) (s.sq.record wr).entry
    exact hpost.congr rfl rfl rfl rfl
  · rw [length_append]
    exact hroom
  · have hpost := h.elems.post hle (hlen ▸ hsized.le.trans hspace)
    rw [← hpbl, ← helems] at hpost
    rw [map_append]
    exact hpost
  · rw [map_append, take_append_of_le_length hle]
    exact h.given

/-- A WR is rejected after it was given elements, at a point where the doorbell tells the index of
the chain. -/
theorem rejected (hadm : s.sq.Admits wr) (hbad : s.sq.malformed wr = true)
    (hidx : s.sq.wq.dbValue = s.sq.wq.pbl.prod.idx) : SqInv base (s.step (.post wr)) := by
  obtain ⟨hroom, -⟩ := h.room_of_admits hadm
  have hcap := h.elems.ring.le_capacity
  have hmore := moreElems_of_malformed hbad
  have hlimits := limits_step h.limits (.post wr)
  rw [step_post_rejected hadm hbad] at hlimits ⊢
  refine ⟨hlimits, ?_, h.room, h.sized, ?_, h.given⟩
  · exact (h.queue.scratch (by rw [length_map]; omega) _).congr rfl rfl rfl rfl
  · have hback := h.elems.putBack (n := 1 + s.sq.moreElems wr) (by omega)
    rw [← (s.sq.build_spec wr).1, ← hidx] at hback
    exact hback

theorem turn (hlt : s.done.length < s.posted.length) (status : IbWcStatus) (force : Bool) :
    SqInv base (s.turn status force) := by
  have hmap : s.done.length < (s.posted.map SqPosted.elems).length := by rwa [length_map]
  have hentry : s.sq.wqeWrId s.sq.wq.cons = s.posted[s.done.length].entry := by
    refine h.queue.entry ?_
    rw [getElem?_map, getElem?_eq_getElem hlt]
    rfl
  have hsize : (s.sq.wqeWrId s.sq.wq.cons).wqeSize =
      ((s.posted.map SqPosted.elems)[s.done.length]).length := by
    rw [hentry, getElem_map, (h.sized _ (getElem_mem hlt)).shadow]
  obtain ⟨hgiven, hnext⟩ := h.elems.complete hmap
  rw [← hsize] at hgiven hnext
  have hlen : (s.turn status force).done.length = s.done.length + 1 := length_append
  refine ⟨{ h.limits with }, ?_, fun hmax => ?_, h.sized, ?_, ?_⟩
  · rw [hlen]
    exact h.queue.complete (by rwa [length_map]) _ _
  · have hroom := h.room hmax
    rw [hlen]
    exact hroom.trans (by change _ < _ + 1 + s.sq.wq.maxWr; omega)
  · rw [hlen]
    exact hnext
  · rw [hlen]
    change (s.done ++ [_]).map WrDone.elems = (s.posted.map SqPosted.elems).take (s.done.length + 1)
    rw [take_succ_eq_append_getElem hmap, ← h.given, map_append]
    exact congrArg (fun l => s.done.map WrDone.elems ++ [l]) hgiven

theorem completed {k : ℕ} (hk : s.done.length + k ≤ s.posted.length) (numEntries : ℕ)
    (status : IbWcStatus) (force : Bool) :
    SqInv base (s.step (.complete k numEntries status force)) := by
  have hlen : s.done.length + k ≤ (s.posted.map SqPosted.entry).length := by rwa [length_map]
  have hturns : Word.sub 16 ((s.done.length + k) % 2 ^ 16) s.sq.wq.wqeCons = k := by
    rw [h.queue.turns_eq h.limits.maxWr (le_add_right _ k) hlen, Nat.add_sub_cancel_left]
  let P : ℕ → List WrDone → Sq → Prop := fun c ds sq =>
    (s.done ++ ds).length = c ∧ SqInv base { s with sq := sq, done := s.done ++ ds }
  have hstop : ∀ c ds sq, c ≤ s.done.length + k → P c ds sq →
      ((sq.wq.wqeCons == (s.done.length + k) % 2 ^ 16) = true ↔ c = s.done.length + k) := by
    rintro c ds sq hc ⟨rfl, hr⟩
    rw [beq_iff_eq]
    exact hr.queue.wqeCons_eq_iff hr.limits.maxWr hc hlen
  have hturn : ∀ c ds sq, c < s.done.length + k → P c ds sq →
      (sq.wq.wqeCons == (s.done.length + k) % 2 ^ 16) = false ∧
        P (c + 1) (ds ++ [(sq.reqTurn 0 status force).2]) (sq.reqTurn 0 status force).1 := by
    rintro c ds sq hc hP
    refine ⟨eq_false_iff.2 fun heq => hc.ne ((hstop c ds sq hc.le hP).1 heq), ?_⟩
    obtain ⟨rfl, hr⟩ := hP
    have hnext := hr.turn (hc.trans_le hk) status force
    rw [SqRun.turn] at hnext
    dsimp only at hnext
    refine ⟨?_, ?_⟩
    · rw [← append_assoc]
      exact length_append
    · rwa [← append_assoc]
  have hstart : P s.done.length [] s.sq := by
    refine ⟨?_, ?_⟩ <;> rw [append_nil]
    exact h
  obtain ⟨c, -, -, ⟨-, hinv⟩, -, -⟩ := drain_spec (·.wc.isSome) (P := P) hturn
    (fun ds sq hP => (hstop _ ds sq le_rfl hP).2 rfl) (le_add_right _ k) [] hstart
    (Nat.add_le_add_left hturns.ge _) numEntries
  exact hinv

end SqInv

/-! ## Runs -/

namespace SqRun

/-- The steps that keep the account. An admitted WR that is rejected after all finds the doorbell at
the index of the chain, one that is accepted is fitting, and the device completes posted WRs. -/
def Sound (s : SqRun) : SqEvent → Prop
  | .post wr => s.sq.Admits wr →
    if s.sq.malformed wr then s.sq.wq.dbValue = s.sq.wq.pbl.prod.idx else wr.Fitting
  | .complete k _ _ _ => s.done.length + k ≤ s.posted.length

instance decidableSound (s : SqRun) (e : SqEvent) : Decidable (s.Sound e) := by
  unfold Sound
  cases e <;> infer_instance

/-- The account of the elements: sizes are right, a completed WR has given back the elements it was
built in, and the elements in use are different. -/
structure Accounted (s : SqRun) : Prop where
  sized : ∀ p ∈ s.posted, p.Sized
  given : s.done.map WrDone.elems = (s.posted.map SqPosted.elems).take s.done.length
  apart : (s.inUse.flatMap SqPosted.elems).Nodup

end SqRun

theorem SqInv.step {base : ℕ → ℕ} {s : SqRun} {e : SqEvent} (h : SqInv base s) (hs : s.Sound e) :
    SqInv base (s.step e) := by
  cases e with
  | post wr =>
    by_cases hadm : s.sq.Admits wr
    · have hs := hs hadm
      cases hbad : s.sq.malformed wr with
      | true =>
        rw [if_pos hbad] at hs
        exact h.rejected hadm hbad hs
      | false =>
        rw [if_neg (eq_false_iff.1 hbad)] at hs
        exact h.accepted hadm hbad hs
    · rw [step_post_refused hadm]
      exact h
  | complete k numEntries status force => exact h.completed hs numEntries status force

end FastLinQ.Qedr
