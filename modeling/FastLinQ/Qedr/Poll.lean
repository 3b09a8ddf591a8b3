import FastLinQ.Qedr.CqRing
import FastLinQ.Qedr.Served
import FastLinQ.Qedr.SendRun

/-!
# Polling comes to an end

Each turn of `qedr_poll_cq` consumes the CQE or uses up the client's array, for every CQE that the
driver knows. The CQEs that look new are those of one turn of the ring at most, so the loop ends. A
CQE of an unknown type is not consumed, and yields no entry: the loop finds it again and again. A
CQE of a shared receive queue is only for QPs that have one.
-/

namespace FastLinQ.Qedr

open Qed Completion Function List Nat Word CqeBody Poll Sq

/-! ## Completion loops with a 16-bit counter -/

section Counter

variable {σ : Type*} {w : σ → ℕ} {turn : σ → σ × WrDone} {hw : ℕ} {s : σ}

/-- A loop has come to `hw`, or has filled an array of `n` entries. -/
def Drained (w : σ → ℕ) (hw n : ℕ) (r : σ × List WrDone) : Prop :=
  w r.1 < 2 ^ 16 ∧ (entries r.2).length ≤ n ∧ (w r.1 = hw ∨ (entries r.2).length = n)

/-- A loop that is to come to `hw` does so, or fills the array. -/
theorem drain_counter (hturn : ∀ s, w (turn s).1 = (w s + 1) % 2 ^ 16) (hs : w s < 2 ^ 16)
    (hhw : hw < 2 ^ 16) (budget : ℕ) : Drained w hw budget
      (drain (fun s => w s == hw) turn (·.wc.isSome) (Word.sub 16 hw (w s)) budget s) := by
  have hsub : Word.sub 16 hw (w s) < 2 ^ 16 := sub_lt ..
  have hend : (w s + Word.sub 16 hw (w s)) % 2 ^ 16 = hw := by
    rw [add_comm, sub_add_mod, mod_eq_of_lt hhw]
  have hgo : ∀ c (ds : List WrDone) s', c < w s + Word.sub 16 hw (w s) →
      (w s ≤ c ∧ w s' = c % 2 ^ 16) →
      (w s' == hw) = false ∧ (w s ≤ c + 1 ∧ w (turn s').1 = (c + 1) % 2 ^ 16) := by
    rintro c ds s' hlt ⟨hle, hc⟩
    refine ⟨?_, hle.trans (le_succ c), ?_⟩
    · rw [beq_eq_false_iff_ne, hc, ← hend]
      exact Cells.apart_mod (2 ^ 16) c _ hlt (by omega)
    · rw [hturn, hc, mod_add_mod]
  obtain ⟨c, -, -, ⟨-, hc⟩, hlimit, hall⟩ :=
    drain_spec (·.wc.isSome) (P := fun c (_ : List WrDone) s' => w s ≤ c ∧ w s' = c % 2 ^ 16) hgo
      (fun ds s' hP => by rw [hP.2, hend]; exact beq_self_eq_true hw) (le_add_right _ _) []
      ⟨le_rfl, (mod_eq_of_lt hs).symm⟩ le_rfl budget
  rw [Drained, length_entries]
  refine ⟨?_, hlimit, hall.imp_left fun heq => ?_⟩
  · exact hc ▸ mod_lt _ (Nat.two_pow_pos 16)
  · rw [heq, hend] at hc
    exact hc

/-- The length of the array does not matter as long as it is not filled. -/
theorem drain_entries {t n n' : ℕ} {stop : σ → Bool}
    (h : (entries (drain stop turn (·.wc.isSome) t n s).2).length < n)
    (h' : (entries (drain stop turn (·.wc.isSome) t n s).2).length < n') :
    drain stop turn (·.wc.isSome) t n' s = drain stop turn (·.wc.isSome) t n s := by
  rw [length_entries] at h h'
  exact drain_budget h h'

/-- A loop that is not where it is to come makes a turn. -/
theorem drain_counter_ne_nil (hs : w s < 2 ^ 16) (hhw : hw < 2 ^ 16) (hne : hw ≠ w s) {n : ℕ}
    (hn : 0 < n) :
    (drain (fun s => w s == hw) turn (·.wc.isSome) (Word.sub 16 hw (w s)) n s).2 ≠ [] := by
  have hpos : 0 < Word.sub 16 hw (w s) := by
    refine pos_of_ne_zero fun hzero => ?_
    have hsum := sub_add_mod 16 hw (w s)
    rw [hzero, zero_add, mod_eq_of_lt hs, mod_eq_of_lt hhw] at hsum
    exact hne hsum.symm
  apply drain_ne_nil _ hpos hn
  exact beq_eq_false_iff_ne.2 hne.symm

end Counter

/-! ## The CQEs of a requester -/

namespace Sq

variable {sq : Sq} {qp n n' hw : ℕ}

theorem processReq_spec (qp n : ℕ) (hs : sq.wq.wqeCons < 2 ^ 16) (hhw : hw < 2 ^ 16)
    (status : IbWcStatus) (force : Bool) :
    Drained (·.wq.wqeCons) hw n (sq.processReq qp n hw status force) :=
  drain_counter (w := fun s : Sq => s.wq.wqeCons) (fun _ => rfl) hs hhw n

theorem processReq_maxWr (status : IbWcStatus) (force : Bool) :
    (sq.processReq qp n hw status force).1.wq.maxWr = sq.wq.maxWr :=
  drain_invariant (P := fun s : Sq => s.wq.maxWr = sq.wq.maxWr) (fun _ h => h) rfl _ _

theorem processReq_last (hs : sq.wq.wqeCons = Word.sub 16 hw 1) (status : IbWcStatus) :
    sq.processReq qp 1 hw status true =
      ((sq.reqTurn qp status true).1, [(sq.reqTurn qp status true).2]) := by
  have hsum := sub_add_mod 16 hw 1
  have hone : Word.sub 16 hw sq.wq.wqeCons = 1 := by
    rw [hs]
    refine sub_unique (by decide) ?_
    rw [add_comm]
    exact hsum
  have hne : sq.wq.wqeCons ≠ hw := by
    intro heq
    omega
  unfold processReq
  rw [hone, drain, if_neg (not_or_intro one_ne_zero fun hst => hne (beq_iff_eq.1 hst))]
  rfl

def reqBefore (sq : Sq) (qp n hw : ℕ) : Sq × List WrDone :=
  sq.processReq qp n (Word.sub 16 hw 1) .success false

theorem reqBefore_maxWr : (sq.reqBefore qp n hw).1.wq.maxWr = sq.wq.maxWr :=
  processReq_maxWr .success false

variable {status : RdmaCqeReqSts}

theorem qedrPollCqReq_error (hok : status ≠ .ok) (hflush : status ≠ .workRequestFlushedErr) :
    sq.qedrPollCqReq qp n hw status =
      if (entries (sq.reqBefore qp n hw).2).length < n then
        (((sq.reqBefore qp n hw).1.processReq qp 1 hw status.wcStatus true).1,
          (sq.reqBefore qp n hw).2 ++
            ((sq.reqBefore qp n hw).1.processReq qp 1 hw status.wcStatus true).2)
      else sq.reqBefore qp n hw := by
  unfold qedrPollCqReq reqBefore
  rw [if_neg hok, if_neg hflush]

/-- A property of the three branches. -/
theorem qedrPollCqReq_induction {C : Sq × List WrDone → Prop} (status : RdmaCqeReqSts)
    (hreq : ∀ st force, C (sq.processReq qp n hw st force))
    (hlast : ∀ x r st, sq.reqBefore qp n hw = x → x.1.processReq qp 1 hw st true = r →
      (entries x.2).length < n → C (r.1, x.2 ++ r.2))
    (hfull : ¬(entries (sq.reqBefore qp n hw).2).length < n → C (sq.reqBefore qp n hw)) :
    C (sq.qedrPollCqReq qp n hw status) := by
  by_cases hok : status = .ok
  · rw [hok]
    exact hreq _ _
  by_cases hflush : status = .workRequestFlushedErr
  · rw [hflush]
    exact hreq _ _
  rw [qedrPollCqReq_error hok hflush]
  split
  · next hmore => exact hlast _ _ _ rfl rfl hmore
  · next hmore => exact hfull hmore

/-- A CQE of a requester is gone through to its end, or the array is filled. -/
theorem qedrPollCqReq_spec (qp n : ℕ) (hs : sq.wq.wqeCons < 2 ^ 16) (hhw : hw < 2 ^ 16)
    (status : RdmaCqeReqSts) :
    Drained (·.wq.wqeCons) hw n (sq.qedrPollCqReq qp n hw status) := by
  have hbefore : Drained (·.wq.wqeCons) _ n (sq.reqBefore qp n hw) :=
    processReq_spec qp n hs (sub_lt 16 hw 1) .success false
  refine qedrPollCqReq_induction (C := Drained (·.wq.wqeCons) hw n) status ?_ ?_ ?_
  · exact fun st force => processReq_spec qp n hs hhw st force
  · intro x r st hx hr hmore
    rw [hx] at hbefore
    have hcons : x.1.wq.wqeCons = _ := hbefore.2.2.resolve_right hmore.ne
    have hlast : (x.1.wq.wqeCons + 1) % 2 ^ 16 = hw := by
      rw [hcons, sub_add_mod, mod_eq_of_lt hhw]
    have hone := length_filterMap_le WrDone.wc [(x.1.reqTurn qp st true).2]
    rw [← hr, processReq_last hcons]
    refine ⟨mod_lt _ (Nat.two_pow_pos 16), ?_, .inl hlast⟩
    rw [entries_append, length_append]
    exact (Nat.add_le_add_left hone _).trans hmore
  · exact fun hfull => ⟨hbefore.1, hbefore.2.1, .inr (hbefore.2.1.eq_of_not_lt hfull)⟩

theorem qedrPollCqReq_maxWr (status : RdmaCqeReqSts) :
    (sq.qedrPollCqReq qp n hw status).1.wq.maxWr = sq.wq.maxWr := by
  refine qedrPollCqReq_induction (C := fun r => r.1.wq.maxWr = sq.wq.maxWr) status ?_ ?_ ?_
  · exact fun st force => processReq_maxWr st force
  · intro x r st hx hr _
    have hbefore := hx ▸ reqBefore_maxWr
    have hafter := hr ▸ processReq_maxWr st true
    exact hafter.trans hbefore
  · exact fun _ => reqBefore_maxWr

theorem qedrPollCqReq_entries (h : (entries (sq.qedrPollCqReq qp n hw status).2).length < n)
    (h' : (entries (sq.qedrPollCqReq qp n hw status).2).length < n') :
    sq.qedrPollCqReq qp n' hw status = sq.qedrPollCqReq qp n hw status := by
  by_cases hok : status = .ok
  · rw [hok] at h h' ⊢
    exact drain_entries h h'
  by_cases hflush : status = .workRequestFlushedErr
  · rw [hflush] at h h' ⊢
    exact drain_entries h h'
  rw [qedrPollCqReq_error hok hflush] at h h' ⊢
  rw [qedrPollCqReq_error hok hflush]
  by_cases hmore : (entries (sq.reqBefore qp n hw).2).length < n
  · rw [if_pos hmore, entries_append, length_append] at h h'
    have hmore' := (le_add_right _ _).trans_lt h'
    have hsame : sq.reqBefore qp n' hw = sq.reqBefore qp n hw := drain_entries hmore hmore'
    rw [hsame, if_pos hmore, if_pos hmore']
  · rw [if_neg hmore] at h
    exact absurd h hmore

/-- A CQE that is behind makes no turn. -/
theorem qedrPollCqReq_idle (hstatus : status = .ok ∨ status = .workRequestFlushedErr)
    (heq : hw = sq.wq.wqeCons) :
    sq.qedrPollCqReq qp n hw status = (sq, []) := by
  have hidle : ∀ st force, sq.processReq qp n hw st force = (sq, []) := by
    intro st force
    apply drain_of_stop
    exact beq_iff_eq.2 heq.symm
  rcases hstatus with rfl | rfl
  · rw [qedrPollCqReq, if_pos rfl, hidle]
  · rw [qedrPollCqReq, if_neg (by decide), if_pos rfl, hidle]

/-- Any other CQE makes a turn. -/
theorem qedrPollCqReq_ne_nil (hs : sq.wq.wqeCons < 2 ^ 16) (hhw : hw < 2 ^ 16) (hn : 0 < n)
    (h : ¬((status = .ok ∨ status = .workRequestFlushedErr) ∧ hw = sq.wq.wqeCons)) :
    (sq.qedrPollCqReq qp n hw status).2 ≠ [] := by
  have hgo : ∀ hw' < 2 ^ 16, hw' ≠ sq.wq.wqeCons → ∀ st force,
      (sq.processReq qp n hw' st force).2 ≠ [] := fun hw' hlt hne st force =>
    drain_counter_ne_nil (w := fun s : Sq => s.wq.wqeCons) hs hlt hne hn
  by_cases hok : status = .ok
  · rw [hok]
    exact hgo hw hhw (fun heq => h ⟨.inl hok, heq⟩) _ _
  by_cases hflush : status = .workRequestFlushedErr
  · rw [hflush]
    exact hgo hw hhw (fun heq => h ⟨.inr hflush, heq⟩) _ _
  rw [qedrPollCqReq_error hok hflush]
  by_cases heq : Word.sub 16 hw 1 = sq.wq.wqeCons
  · have hidle : sq.reqBefore qp n hw = (sq, []) := by
      apply drain_of_stop
      exact beq_iff_eq.2 heq.symm
    have hzero : (entries (sq, ([] : List WrDone)).2).length < n := hn
    rw [hidle, if_pos hzero, processReq_last heq.symm]
    exact cons_ne_nil _ _
  · have hne := hgo _ (sub_lt 16 hw 1) heq .success false
    split
    · exact append_ne_nil_of_left_ne_nil hne _
    · exact hne

end Sq

/-! ## The flush of a responder -/

namespace Rq

variable {rq : Rq} {qp n n' hw : ℕ}

theorem processRespFlush_spec (qp n : ℕ) (hs : rq.wq.wqeCons < 2 ^ 16) (hhw : hw < 2 ^ 16) :
    Drained (·.wq.wqeCons) hw n (rq.processRespFlush qp n hw) :=
  drain_counter (w := fun s : Rq => s.wq.wqeCons) (fun _ => rfl) hs hhw n

theorem processRespFlush_maxWr : (rq.processRespFlush qp n hw).1.wq.maxWr = rq.wq.maxWr :=
  drain_invariant (P := fun s : Rq => s.wq.maxWr = rq.wq.maxWr) (fun _ h => h) rfl _ _

end Rq

/-! ## One turn -/

/-- `wqe_cons` has 16 bits. -/
def Qp.Words (qp : Qp) : Prop := qp.sq.wq.wqeCons < 2 ^ 16 ∧ qp.rq.wq.wqeCons < 2 ^ 16

/-- The driver can deal with the CQE: it knows the type, and it is not led to complete a request of
a queue that has no shadow array, or of a shared queue that the QP does not have. -/
def CqeBody.Harmless (qp : Qp) : CqeBody → Prop
  | .requester status sqCons => qp.sq.wq.maxWr ≠ 0 ∨
    (status = .ok ∨ status = .workRequestFlushedErr) ∧ sqCons.toNat = qp.sq.wq.wqeCons
  | .responderRq resp => qp.rq.wq.maxWr ≠ 0 ∨
    resp.status = .workRequestFlushedErr ∧ resp.rqConsOrSrqId.toNat = qp.rq.wq.wqeCons
  | .responderSrq _ => qp.srq = true
  | .responderXrcSrq => False

instance CqeBody.decidableHarmless (qp : Qp) (body : CqeBody) : Decidable (body.Harmless qp) := by
  unfold Harmless
  cases body <;> infer_instance

/-- The same as far as `Harmless` is concerned. -/
structure Qp.Alike (qp qp' : Qp) : Prop where
  sqMaxWr : qp'.sq.wq.maxWr = qp.sq.wq.maxWr
  rqMaxWr : qp'.rq.wq.maxWr = qp.rq.wq.maxWr
  sqCons : qp.sq.wq.maxWr = 0 → qp'.sq.wq.wqeCons = qp.sq.wq.wqeCons
  rqCons : qp.rq.wq.maxWr = 0 → qp'.rq.wq.wqeCons = qp.rq.wq.wqeCons
  srq : qp'.srq = qp.srq

theorem Qp.Alike.refl (qp : Qp) : qp.Alike qp := ⟨rfl, rfl, fun _ => rfl, fun _ => rfl, rfl⟩

theorem Qp.Alike.harmless_iff {qp qp' : Qp} (h : qp.Alike qp') (body : CqeBody) :
    body.Harmless qp' ↔ body.Harmless qp := by
  cases body with
  | requester status sqCons =>
    unfold Harmless
    rw [h.sqMaxWr]
    by_cases hmax : qp.sq.wq.maxWr = 0
    · rw [h.sqCons hmax]
    · exact iff_of_true (.inl hmax) (.inl hmax)
  | responderRq resp =>
    unfold Harmless
    rw [h.rqMaxWr]
    by_cases hmax : qp.rq.wq.maxWr = 0
    · rw [h.rqCons hmax]
    · exact iff_of_true (.inl hmax) (.inl hmax)
  | responderSrq resp =>
    unfold Harmless
    rw [h.srq]
  | responderXrcSrq => exact Iff.rfl

namespace Poll

/-- What a turn does for a CQE that the driver can deal with. -/
structure Handled.Fine (qp : Qp) (n : ℕ) (r : Handled) : Prop where
  words : r.qp.Words
  alike : qp.Alike r.qp
  count : (entries r.done).length ≤ n
  progress : r.consumed = true ∨ (entries r.done).length = n
  noFault : r.fault = false

/-- A queue without entries is not divided by if no request of it is completed. -/
theorem noFault_of_idle {m : ℕ} {l : List WrDone} (h : m = 0 → l = []) :
    incFault m l = false := by
  unfold incFault
  by_cases hm : m = 0
  · rw [h hm]
    exact Bool.and_false _
  · rw [beq_eq_false_iff_ne.2 hm, Bool.false_and]

variable {p : Poll} {q : ℕ}

theorem handle_requester (hw : (p.qps q).Words) {status : RdmaCqeReqSts} {sqCons : BitVec 16}
    (h : (requester status sqCons).Harmless (p.qps q)) :
    (p.handle q (.requester status sqCons)).Fine (p.qps q) p.numEntries := by
  obtain ⟨hlt, hle, hor⟩ := qedrPollCqReq_spec q p.numEntries hw.1 sqCons.isLt status
  have hidle : (p.qps q).sq.wq.maxWr = 0 →
      (p.qps q).sq.qedrPollCqReq q p.numEntries sqCons.toNat status = ((p.qps q).sq, []) :=
    fun hmax => by
      obtain ⟨hstatus, heq⟩ := h.resolve_left fun hne => hne hmax
      exact qedrPollCqReq_idle hstatus heq
  refine ⟨⟨hlt, hw.2⟩, ⟨qedrPollCqReq_maxWr _, rfl, fun hmax => ?_, fun _ => rfl, rfl⟩, hle,
    hor.imp_left fun heq => beq_iff_eq.2 heq.symm, ?_⟩
  · exact congrArg (fun r : Sq × List WrDone => r.1.wq.wqeCons) (hidle hmax)
  · exact noFault_of_idle fun hmax => congrArg Prod.snd (hidle hmax)

theorem handle_responder (hw : (p.qps q).Words) (hn : 0 < p.numEntries) {resp : RdmaCqeResponder}
    (h : (responderRq resp).Harmless (p.qps q)) :
    (p.handle q (.responderRq resp)).Fine (p.qps q) p.numEntries := by
  unfold handle
  dsimp only
  by_cases hflush : resp.status = .workRequestFlushedErr
  · obtain ⟨hlt, hle, hor⟩ := Rq.processRespFlush_spec q p.numEntries hw.2 resp.rqConsOrSrqId.isLt
    have hidle : (p.qps q).rq.wq.maxWr = 0 →
        (p.qps q).rq.processRespFlush q p.numEntries resp.rqConsOrSrqId.toNat =
          ((p.qps q).rq, []) := by
      intro hmax
      apply drain_of_stop
      exact beq_iff_eq.2 (h.resolve_left fun hne => hne hmax).2.symm
    rw [if_pos hflush]
    refine ⟨⟨hw.1, hlt⟩, ⟨rfl, Rq.processRespFlush_maxWr, fun _ => rfl, fun hmax => ?_, rfl⟩, hle,
      hor.imp_left fun heq => beq_iff_eq.2 heq.symm, ?_⟩
    · exact congrArg (fun r : Rq × List WrDone => r.1.wq.wqeCons) (hidle hmax)
    · exact noFault_of_idle fun hmax => congrArg Prod.snd (hidle hmax)
  · have hmax := h.resolve_right fun hf => hflush hf.1
    rw [if_neg hflush]
    refine ⟨⟨hw.1, mod_lt _ (Nat.two_pow_pos 16)⟩,
      ⟨rfl, rfl, fun _ => rfl, fun hzero => absurd hzero hmax, rfl⟩, hn, .inl rfl, ?_⟩
    exact noFault_of_idle fun hzero => absurd hzero hmax

variable {body : CqeBody}

/-- **A turn** for a CQE that the driver can deal with. -/
theorem handle_fine (hw : (p.qps q).Words) (hn : 0 < p.numEntries) (h : body.Harmless (p.qps q)) :
    (p.handle q body).Fine (p.qps q) p.numEntries := by
  cases body with
  | requester status sqCons => exact handle_requester hw h
  | responderRq resp => exact handle_responder hw hn h
  | responderSrq resp => exact ⟨hw, .refl _, hn, .inl rfl, congrArg not h⟩
  | responderXrcSrq => exact h.elim

theorem handle_numEntries {n : ℕ} (h : (entries (p.handle q body).done).length < p.numEntries)
    (h' : (entries (p.handle q body).done).length < n) :
    ({ p with numEntries := n } : Poll).handle q body = p.handle q body := by
  cases body with
  | requester status sqCons =>
    unfold handle at h h' ⊢
    dsimp only at h h' ⊢
    rw [qedrPollCqReq_entries h h']
  | responderRq resp =>
    unfold handle at h h' ⊢
    dsimp only at h h' ⊢
    by_cases hflush : resp.status = .workRequestFlushedErr
    · rw [if_pos hflush] at h h' ⊢
      rw [if_pos hflush]
      have hsame : (p.qps q).rq.processRespFlush q n resp.rqConsOrSrqId.toNat =
          (p.qps q).rq.processRespFlush q p.numEntries resp.rqConsOrSrqId.toNat :=
        drain_entries h h'
      rw [hsame]
    · rw [if_neg hflush, if_neg hflush]
  | responderSrq resp => rfl
  | responderXrcSrq => rfl

/-- A turn goes through no more requests than the counters allow. -/
theorem length_done_lt (p : Poll) (q : ℕ) (body : CqeBody) :
    (p.handle q body).done.length < 2 ^ 17 := by
  have hdrain : ∀ (sq : Sq) n hw st force, (sq.processReq q n hw st force).2.length < 2 ^ 16 :=
    fun sq n hw st force => (drain_length_le _ _ _).trans_lt (sub_lt ..)
  cases body with
  | requester status sqCons =>
    change ((p.qps q).sq.qedrPollCqReq q p.numEntries sqCons.toNat status).2.length < _
    refine qedrPollCqReq_induction (C := fun r => r.2.length < 2 ^ 17) status ?_ ?_ ?_
    · exact fun st force => (hdrain _ _ _ st force).trans (by decide)
    · rintro x r st hx rfl -
      have hbefore : x.2.length < 2 ^ 16 := hx ▸ hdrain _ _ _ _ _
      rw [length_append]
      exact (Nat.add_lt_add hbefore (hdrain _ _ _ st true)).trans_eq (by decide)
    · exact fun _ => (hdrain _ _ _ _ _).trans (by decide)
  | responderRq resp =>
    unfold handle
    dsimp only
    split
    · exact ((drain_length_le _ _ _).trans_lt (Word.sub_lt ..)).trans (by decide)
    · exact (by decide : 1 < 2 ^ 17)
  | responderSrq resp => exact (by decide : 1 < 2 ^ 17)
  | responderXrcSrq => exact Nat.two_pow_pos 17

/-- A CQE that the driver cannot deal with: it finds the CQE again, or comes to a fault. -/
theorem handle_harmful (hw : (p.qps q).Words) (hn : 0 < p.numEntries)
    (h : ¬body.Harmless (p.qps q)) :
    body = .responderXrcSrq ∨ (p.handle q body).fault = true := by
  cases body with
  | requester status sqCons =>
    right
    unfold Harmless at h
    rw [not_or, not_not] at h
    have hne : ((p.qps q).sq.qedrPollCqReq q p.numEntries sqCons.toNat status).2 ≠ [] :=
      qedrPollCqReq_ne_nil hw.1 sqCons.isLt hn h.2
    unfold handle incFault
    dsimp only
    rw [h.1, Bool.and_eq_true, Bool.not_eq_true', isEmpty_eq_false_iff]
    exact ⟨rfl, hne⟩
  | responderRq resp =>
    right
    unfold Harmless at h
    rw [not_or, not_not] at h
    unfold handle incFault
    dsimp only
    split
    · rename_i hflush
      dsimp only
      rw [h.1, Bool.and_eq_true, Bool.not_eq_true', isEmpty_eq_false_iff]
      refine ⟨rfl, ?_⟩
      exact drain_counter_ne_nil (w := fun s : Rq => s.wq.wqeCons) hw.2 resp.rqConsOrSrqId.isLt
        (fun heq => h.2 ⟨hflush, heq⟩) hn
    · dsimp only
      rw [h.1]
      rfl
  | responderSrq resp =>
    exact .inr (congrArg not (Bool.eq_false_iff.2 h))
  | responderXrcSrq => exact .inl rfl

/-! ## The loop -/

variable {mem : ℕ → Cqe} {l : List (ℕ × CqeBody)} {body : CqeBody}

theorem turn_eq (h : mem p.cq.latestCqe = ⟨p.cq.pblToggle, some q, body⟩) :
    p.turn mem = p.account q (p.handle q body) := by
  unfold turn
  rw [h]

theorem not_ended (h : mem p.cq.latestCqe = ⟨p.cq.pblToggle, some q, body⟩)
    (hn : p.numEntries ≠ 0) (hf : p.fault = false) : ¬p.Ended mem := by
  rintro (hzero | hv | hq | hfault)
  · exact hn hzero
  · rw [Cq.isValidCqe, h, beq_self_eq_true] at hv
    exact absurd hv (by decide)
  · rw [h] at hq
    exact absurd hq (Option.some_ne_none q)
  · rw [hf] at hfault
    exact absurd hfault (by decide)

theorem run_succ_left (h : ¬p.Ended mem) (t : ℕ) : p.run mem (t + 1) = (p.turn mem).run mem t :=
  Loop.run_succ_left h t

theorem words_account {r : Handled} (hw : ∀ q, (p.qps q).Words) (hr : r.Fine (p.qps q) p.numEntries)
    (q' : ℕ) : ((p.account q r).qps q').Words :=
  (forall_update_iff p.qps fun _ qp => qp.Words).2 ⟨hr.words, fun q _ => hw q⟩ q'

theorem alike_account {r : Handled} (hr : r.Fine (p.qps q) p.numEntries) (q' : ℕ) :
    (p.qps q').Alike ((p.account q r).qps q') :=
  (forall_update_iff p.qps fun q => (p.qps q).Alike).2 ⟨hr.alike, fun _ _ => .refl _⟩ q'

/-- If the driver can deal with all CQEs then the loop ends, and fills no more than the array. -/
theorem returns_of_harmless (hl : Pending mem p.cq l) (hw : ∀ q, (p.qps q).Words)
    (hf : p.fault = false) (hh : ∀ x ∈ l, x.2.Harmless (p.qps x.1)) :
    ∃ t ≤ l.length, p.Returns mem t ∧ (p.run mem t).wcs.length ≤ p.wcs.length + p.numEntries := by
  induction l generalizing p with
  | nil =>
    refine ⟨0, le_rfl, ⟨?_, hf⟩, le_add_right _ _⟩
    rcases hl with hv | hq
    · exact .inr (.inl hv)
    · exact .inr (.inr (.inl hq))
  | cons x l ih =>
    obtain ⟨hmem, hl⟩ := hl
    by_cases hn : p.numEntries = 0
    · exact ⟨0, zero_le _, ⟨.inl hn, hf⟩, le_add_right _ _⟩
    have hr := handle_fine (hw x.1) (pos_of_ne_zero hn) (hh x mem_cons_self)
    have hturn := turn_eq hmem
    have hsum : (p.turn mem).wcs.length + (p.turn mem).numEntries =
        p.wcs.length + p.numEntries := by
      have hcount := hr.count
      rw [hturn]
      change (entries (p.done ++ _)).length + (p.numEntries - _) = (entries p.done).length + _
      rw [entries_append, length_append]
      omega
    by_cases hfull : (entries (p.handle x.1 x.2).done).length = p.numEntries
    · -- the array is full
      have hzero : (p.turn mem).numEntries = 0 := by
        rw [hturn]
        exact Nat.sub_eq_zero_of_le hfull.ge
      refine ⟨1, succ_le_succ (zero_le _), ⟨?_, ?_⟩, ?_⟩
      all_goals rw [run_succ_left (not_ended hmem hn hf)]
      · exact .inl hzero
      · rw [hturn]
        exact hr.noFault
      · exact (le_add_right _ _).trans hsum.le
    · -- the CQE is consumed
      have hcq : (p.turn mem).cq = p.cq.consumeCqe := by
        rw [hturn]
        exact if_pos (hr.progress.resolve_right hfull)
      obtain ⟨t, hle, hret, hlen⟩ := ih (by rw [hcq]; exact hl)
        (by rw [hturn]; exact words_account hw hr) (by rw [hturn]; exact hr.noFault)
        (by
          intro y hy
          rw [hturn, (alike_account hr _).harmless_iff]
          exact hh y (mem_cons_of_mem _ hy))
      refine ⟨t + 1, succ_le_succ hle, ?_, ?_⟩
      · unfold Returns
        rw [run_succ_left (not_ended hmem hn hf)]
        exact hret
      · rw [run_succ_left (not_ended hmem hn hf)]
        exact hlen.trans hsum.le

/-- A CQE of a type that the driver does not know is found again and again. -/
theorem not_returns_of_unknown (h : mem p.cq.latestCqe = ⟨p.cq.pblToggle, some q, .responderXrcSrq⟩)
    (hn : p.numEntries ≠ 0) (hf : p.fault = false) (t : ℕ) : ¬p.Returns mem t := by
  have hend := not_ended h hn hf
  have hturn : p.turn mem = p := by
    rw [turn_eq h]
    unfold account handle
    dsimp only
    rw [append_nil, update_eq_self]
    obtain ⟨n, cq, qps, done, taken, fault⟩ := p
    exact congrArg (mk n cq qps done taken) hf.symm
  have hrun : p.run mem t = p := by
    induction t with
    | zero => rfl
    | succ t ih => rw [run_succ_left hend, hturn, ih]
  rintro ⟨hended, -⟩
  rw [hrun] at hended
  exact hend hended

theorem not_returns_of_fault (hend : ¬p.Ended mem) (hfault : (p.turn mem).fault = true) (t : ℕ) :
    ¬p.Returns mem t := by
  rintro ⟨hended, hf⟩
  cases t with
  | zero => exact hend hended
  | succ t =>
    have hfin : (p.turn mem).Ended mem := .inr (.inr (.inr hfault))
    have hrun : (p.turn mem).run mem t = p.turn mem := Loop.run_of_fin hfin (zero_le t)
    rw [run_succ_left hend, hrun, hfault] at hf
    exact absurd hf (by decide)

/-- If there is a CQE that the driver cannot deal with then the call does not return, for a client's
array that is long enough. -/
theorem exists_not_returns {cq : Cq} {qps : ℕ → Qp} (hl : Pending mem cq l)
    (hw : ∀ q, (qps q).Words) (hh : ∃ x ∈ l, ¬x.2.Harmless (qps x.1)) (done : List WrDone)
    (taken : ℕ) : ∃ n, ∀ t, ¬Returns mem ⟨n, cq, qps, done, taken, false⟩ t := by
  induction l generalizing cq qps done taken with
  | nil => exact absurd hh (by simp)
  | cons x l ih =>
    obtain ⟨hmem, hl⟩ := hl
    by_cases hx : x.2.Harmless (qps x.1)
    · -- with an array that it does not fill, the CQE is gone through
      let p : Poll := ⟨2 ^ 17, cq, qps, done, taken, false⟩
      have hr := handle_fine (p := p) (hw x.1) (Nat.two_pow_pos 17) hx
      have hlt : (entries (p.handle x.1 x.2).done).length < 2 ^ 17 :=
        (length_filterMap_le _ _).trans_lt (length_done_lt _ _ _)
      have hsame : ∀ n, _ < n → handle ⟨n, cq, qps, done, taken, false⟩ x.1 x.2 =
          p.handle x.1 x.2 := fun n hn => handle_numEntries (p := p) hlt hn
      generalize p.handle x.1 x.2 = r at hr hlt hsame
      have hw' : ∀ q', (update qps x.1 r.qp q').Words := words_account hw hr
      have hh' : ∃ y ∈ l, ¬y.2.Harmless (update qps x.1 r.qp y.1) := by
        obtain ⟨y, hy, hbad⟩ := hh
        rcases mem_cons.1 hy with rfl | hy
        · exact absurd hx hbad
        · refine ⟨y, hy, fun hgood => hbad ?_⟩
          exact ((alike_account hr y.1).harmless_iff y.2).1 hgood
      obtain ⟨n, hn⟩ := ih hl hw' hh' (done ++ r.done) (taken + 1)
      have hpos : n ≠ 0 := fun hzero => hn 0 ⟨.inl hzero, rfl⟩
      refine ⟨n + (entries r.done).length, fun t => ?_⟩
      have hend : ¬Ended mem ⟨n + (entries r.done).length, cq, qps, done, taken, false⟩ :=
        not_ended hmem (show n + (entries r.done).length ≠ 0 by omega) rfl
      have hturn : turn mem ⟨n + (entries r.done).length, cq, qps, done, taken, false⟩ =
          ⟨n, cq.consumeCqe, update qps x.1 r.qp, done ++ r.done, taken + 1, false⟩ := by
        rw [turn_eq hmem, hsame _ (by omega)]
        unfold account
        dsimp only
        rw [Nat.add_sub_cancel, if_pos (hr.progress.resolve_right hlt.ne),
          if_pos (hr.progress.resolve_right hlt.ne), hr.noFault]
      rintro ⟨hended, hf⟩
      cases t with
      | zero => exact hend hended
      | succ t =>
        rw [run_succ_left hend, hturn] at hended hf
        exact hn t ⟨hended, hf⟩
    · refine ⟨1, fun t => ?_⟩
      rcases handle_harmful (p := ⟨1, cq, qps, done, taken, false⟩) (hw x.1) one_pos hx with
        hxrc | hfault
      · rw [hxrc] at hmem
        exact not_returns_of_unknown hmem one_ne_zero rfl t
      · refine not_returns_of_fault (not_ended hmem one_ne_zero rfl) ?_ t
        rw [turn_eq (p := ⟨1, cq, qps, done, taken, false⟩) hmem]
        exact hfault

end Poll

/-- **Polling comes to an end.** For every CQ after any number of consumed CQEs, every content of
the memory and every state of the QPs, `qedr_poll_cq` returns, for every length of the client's
array, and fills no more than the array, exactly if the driver can deal with all CQEs that look new.
-/
theorem poll_returns_iff {env : DmaEnv} {pageSize entries : ℕ} {cq₀ : Cq}
    (hcreate : qedrCreateCq env pageSize entries = .ok cq₀)
    (hd : env.Disjoint QED_CHAIN_PAGE_SIZE (cqChainParams pageSize entries).pageCnt) (r : ℕ)
    (mem : ℕ → Cqe) (qps : ℕ → Qp) (hw : ∀ q, (qps q).Words) :
    let cq := Cq.consumeCqe^[r] cq₀
    (∀ n, ∃ t, (start n cq qps).Returns mem t ∧ ((start n cq qps).run mem t).wcs.length ≤ n) ↔
      ∀ x ∈ cq.pending mem cq.pbl.capacity, x.2.Harmless (qps x.1) := by
  intro cq
  have hat : CqAt env.addr cq r := by
    have hiter : ∀ i, CqAt env.addr (Cq.consumeCqe^[i] cq₀) i := by
      intro i
      induction i with
      | zero => exact cqAt_of_create hcreate hd
      | succ i ih =>
        rw [iterate_succ_apply']
        exact ih.consume
    exact hiter r
  have hl := hat.pending mem
  constructor
  · intro hret
    by_contra hbad
    have hbad' : ∃ x ∈ cq.pending mem cq.pbl.capacity, ¬x.2.Harmless (qps x.1) := by
      simpa only [not_forall, exists_prop] using hbad
    obtain ⟨n, hn⟩ := exists_not_returns hl hw hbad' [] 0
    obtain ⟨t, ht, -⟩ := hret n
    exact hn t ht
  · intro hh n
    obtain ⟨t, -, ht, hlen⟩ := returns_of_harmless (p := .start n cq qps) hl hw rfl hh
    exact ⟨t, ht, hlen.trans_eq (zero_add n)⟩

/-- A memory with one new CQE, at the start of the ring. -/
def oneCqe (body : CqeBody) : ℕ → Cqe := fun a => ⟨a == 0x11000, some 0, body⟩

/-- A successful completion of the first request of a QP. -/
theorem poll_returns_requester :
    ∃ sq rq cq,
      qedrCreateSq (.backToBack 0x10000 QED_CHAIN_PAGE_SIZE) roceDev hundredWrs none = .ok sq ∧
      qedrCreateRq (.backToBack 0x10000 QED_CHAIN_PAGE_SIZE) roceDev hundredWrs none = .ok rq ∧
      qedrCreateCq (.backToBack 0x10000 QED_CHAIN_PAGE_SIZE) 0x1000 10 = .ok cq ∧
      ∀ n, ∃ t, (start n cq fun _ => ⟨sq, rq, false⟩).Returns (oneCqe (.requester .ok 1)) t ∧
        ((start n cq fun _ => ⟨sq, rq, false⟩).run (oneCqe (.requester .ok 1)) t).wcs.length ≤
          n := by
  have hs : qedrCreateSq (.backToBack 0x10000 QED_CHAIN_PAGE_SIZE) roceDev hundredWrs none =
    .ok _ := rfl
  have hr : qedrCreateRq (.backToBack 0x10000 QED_CHAIN_PAGE_SIZE) roceDev hundredWrs none =
    .ok _ := rfl
  have hc : qedrCreateCq (.backToBack 0x10000 QED_CHAIN_PAGE_SIZE) 0x1000 10 = .ok _ := rfl
  refine ⟨_, _, _, hs, hr, hc, ?_⟩
  refine (poll_returns_iff hc (DmaEnv.backToBack_disjoint _ _ _) 0 _ _ fun _ => ⟨?_, ?_⟩).2 ?_
  · decide
  · decide
  · decide +kernel

/-- A CQE of an XRC shared receive queue, or any other CQE whose type field is 3. -/
theorem not_poll_returns :
    ∃ cq, qedrCreateCq (.backToBack 0x10000 QED_CHAIN_PAGE_SIZE) 0x1000 10 = .ok cq ∧
      ∀ n ≠ 0, ∀ qps t, ¬(start n cq qps).Returns (oneCqe .responderXrcSrq) t := by
  refine ⟨_, rfl, fun n hn qps t => ?_⟩
  exact not_returns_of_unknown rfl hn rfl t

end FastLinQ.Qedr
