import FastLinQ.Foundations.Phase
import FastLinQ.Qedr.Cq

/-!
# The ring of a completion queue

`CqAt base cq r` says where a CQ stands after `r` CQEs were consumed. The toggle that the driver
expects is the phase of the next CQE, so the CQEs that look new come from at most one turn of the
ring: `Cq.pending` is the list of them, for any content of the memory.
-/

namespace FastLinQ.Qedr

open Qed Phase Nat

/-- The last element of the chain is the last one of a turn of the ring. -/
theorem lastElem_eq {c : Chain} {base : ℕ → ℕ} {e : ℕ} (T : WideRing c base e) :
    qedChainGetLastElem c = c.elemAddr base (c.capacity - 1) := by
  have hpow := Nat.two_pow_pos e
  have hpages := T.ring.pageCnt_pos
  have hsplit : c.capacity - 1 = 2 ^ e * (c.pageCnt - 1) + (2 ^ e - 1) := by
    rw [T.capacity_eq]
    obtain ⟨n, hn⟩ := exists_eq_succ_of_ne_zero hpages.ne'
    rw [hn, succ_sub_one, mul_succ]
    omega
  have hdiv : (c.capacity - 1) / 2 ^ e = c.pageCnt - 1 := by
    rw [hsplit, mul_add_div hpow, div_eq_of_lt (by omega), Nat.add_zero]
  have hmod : (c.capacity - 1) % 2 ^ e = 2 ^ e - 1 := by
    rw [hsplit, mul_add_mod, mod_eq_of_lt (by omega)]
  rw [qedChainGetLastElem, ChainInfo.elemAddr, T.usable, hdiv, hmod,
    T.ring.tbl T.mode _ (by omega), mod_eq_of_lt (by omega), Nat.mul_comm]

/-- `r` CQEs were consumed. -/
structure CqAt (base : ℕ → ℕ) (cq : Cq) (r : ℕ) : Prop where
  ring : WideRing cq.pbl base 7
  cons : PblAt cq.pbl base cq.pbl.cons (r + 1)
  latest : cq.latestCqe = cq.pbl.elemAddr base r
  last : cq.toggleCqe = cq.pbl.elemAddr base (cq.pbl.capacity - 1)
  toggle : cq.pblToggle = phase cq.pbl.capacity (r + cq.pbl.capacity)

theorem cqAt_of_create {env : DmaEnv} {pageSize entries : ℕ} {cq : Cq}
    (h : qedrCreateCq env pageSize entries = .ok cq)
    (hd : env.Disjoint QED_CHAIN_PAGE_SIZE (cqChainParams pageSize entries).pageCnt) :
    CqAt env.addr cq 0 := by
  unfold qedrCreateCq at h
  split at h
  · exact nomatch h
  obtain ⟨pbl, hpbl, rfl⟩ := exists_of_map_ok h
  have hsmall : 32 < 2 ^ 8 := by decide
  have hper : elemsPerPage QED_CHAIN_PAGE_SIZE 32 = 2 ^ 7 := by decide
  obtain ⟨T, hs⟩ := wideRing_of_alloc hpbl hd rfl rfl hsmall (by decide) hper
  have hcons := pblAt_cons_of_alloc hpbl T.ring rfl hs
  obtain ⟨haddr, hnext⟩ := hcons.next T.ring T.mode
  have hpos : 0 < pbl.capacity := (Nat.two_pow_pos 7).trans_le T.le_capacity
  refine ⟨T, hnext, haddr, lastElem_eq T, ?_⟩
  change true = phase pbl.capacity (0 + pbl.capacity)
  rw [phase_add_self hpos, phase, Nat.zero_div]
  rfl

namespace CqAt

variable {base : ℕ → ℕ} {cq : Cq} {r : ℕ} (h : CqAt base cq r)

include h

theorem capacity_pos : 0 < cq.pbl.capacity := (Nat.two_pow_pos 7).trans_le h.ring.le_capacity

/-- The CQE at the end of a turn of the ring. -/
theorem latest_eq_iff :
    cq.latestCqe = cq.toggleCqe ↔ r % cq.pbl.capacity = cq.pbl.capacity - 1 := by
  have hpos := h.capacity_pos
  have hlt := mod_lt r hpos
  rw [h.latest, h.last, ← h.ring.elemAddr_mod r]
  refine ⟨fun heq => ?_, fun heq => by rw [heq]⟩
  by_contra hne
  exact h.ring.apart _ _ (show r % cq.pbl.capacity < cq.pbl.capacity - 1 by omega) (by omega) heq

theorem consume : CqAt base cq.consumeCqe (r + 1) := by
  obtain ⟨haddr, hnext⟩ := h.cons.next h.ring.ring h.ring.mode
  refine ⟨h.ring, hnext, haddr, h.last, ?_⟩
  change (if cq.latestCqe = cq.toggleCqe then !cq.pblToggle else cq.pblToggle) =
    phase cq.pbl.capacity (r + 1 + cq.pbl.capacity)
  have hmod : (r + cq.pbl.capacity) % cq.pbl.capacity = r % cq.pbl.capacity := add_mod_right _ _
  rw [Nat.add_right_comm, phase_succ h.capacity_pos, hmod, h.toggle]
  by_cases hlast : cq.latestCqe = cq.toggleCqe
  · rw [if_pos hlast, if_pos (h.latest_eq_iff.1 hlast)]
  · rw [if_neg hlast, if_neg (mt h.latest_eq_iff.2 hlast)]

end CqAt

/-! ## The CQEs that look new -/

/-- The CQEs that `qedr_poll_cq` finds in the memory, at most `n` of them, each with its QP. -/
def Cq.pending (mem : ℕ → Cqe) : ℕ → Cq → List (ℕ × CqeBody)
  | 0, _ => []
  | n + 1, cq =>
    match (mem cq.latestCqe).qp with
    | none => []
    | some q =>
      if cq.isValidCqe (mem cq.latestCqe) then
        (q, (mem cq.latestCqe).body) :: pending mem n cq.consumeCqe
      else []

/-- `l` are the CQEs that `qedr_poll_cq` finds. -/
def Pending (mem : ℕ → Cqe) : Cq → List (ℕ × CqeBody) → Prop
  | cq, [] => cq.isValidCqe (mem cq.latestCqe) = false ∨ (mem cq.latestCqe).qp = none
  | cq, x :: l =>
    mem cq.latestCqe = ⟨cq.pblToggle, some x.1, x.2⟩ ∧ Pending mem cq.consumeCqe l

/-- The driver finds no more CQEs than the ring has. -/
theorem CqAt.pending {base : ℕ → ℕ} {cq : Cq} {r : ℕ} (h : CqAt base cq r) (mem : ℕ → Cqe) :
    Pending mem cq (cq.pending mem cq.pbl.capacity) := by
  have hpos := h.capacity_pos
  -- The first CQE of the walk was new, so the walk ends where it comes round to it.
  have hwalk : ∀ n i (d : Cq), d.pbl.toChainInfo = cq.pbl.toChainInfo → CqAt base d (r + i) →
      n + i = cq.pbl.capacity →
      (i = 0 ∨
        (mem (cq.pbl.elemAddr base r)).toggle = phase cq.pbl.capacity (r + cq.pbl.capacity)) →
      Pending mem d (d.pending mem n) := by
    intro n
    induction n with
    | zero =>
      intro i d hd hat hi hfirst
      obtain rfl : i = cq.pbl.capacity := by omega
      have hround : d.latestCqe = cq.pbl.elemAddr base r := by
        rw [hat.latest, hd, h.ring.elemAddr_add]
      have hexp : d.pblToggle = !phase cq.pbl.capacity (r + cq.pbl.capacity) := by
        rw [hat.toggle, hd, phase_add_self hpos]
      refine .inl ?_
      rw [Cq.isValidCqe, hround, hexp, hfirst.resolve_left hpos.ne', Bool.beq_eq_decide_eq,
        decide_eq_false_iff_not]
      exact (Bool.eq_not_self _).1
    | succ n ih =>
      intro i d hd hat hi hfirst
      unfold Cq.pending
      cases hq : (mem d.latestCqe).qp with
      | none => exact .inr hq
      | some q =>
        cases hv : d.isValidCqe (mem d.latestCqe) with
        | false => exact .inl hv
        | true =>
          have htoggle : (mem d.latestCqe).toggle = d.pblToggle := by
            rwa [Cq.isValidCqe, beq_iff_eq] at hv
          refine ⟨?_, ih (i + 1) d.consumeCqe hd hat.consume (by omega) (.inr ?_)⟩
          · rw [← htoggle, ← hq]
          · rcases hfirst with rfl | hfirst
            · rw [← hd]
              rw [hat.latest, hat.toggle] at htoggle
              exact htoggle
            · exact hfirst
  exact hwalk cq.pbl.capacity 0 cq rfl h rfl (.inl rfl)

end FastLinQ.Qedr
