import FastLinQ.Qed.Mcp.Basic

/-!
# One command in flight

Whatever the callers, the firmware and its reboots do, at most one element of `cmd_list` is not
completed, it is the head, and it expects the sequence number `drv_mb_seq`; so the response with
that number is stored for the right element (`mcpSound_run`).

That this response is the answer to the command needs more: sequence numbers have 16 bits, and after
a reboot the driver goes on from what it finds in the mailbox. A caller gets the answer to its own
command if its number was not in use for something else, which is what `McpSys.reused` records.
-/

namespace FastLinQ.Qed

open Function List Nat Bool McpSys McpInfo McpPhase

/-- All elements behind the head are completed, and a head that is not expects `drv_mb_seq`. -/
def McpInfo.Ordered (info : McpInfo) : Prop :=
  match info.cmdList with
  | [] => True
  | e :: l => (∀ x ∈ l, x.isCompleted) ∧ (e.isCompleted = false → e.expectedSeqNum = info.drvMbSeq)

/-- What holds between any two sections under the lock. -/
structure McpSound (s : McpSys) : Prop where
  ordered : s.info.Ordered
  /-- no command was written while another one was pending -/
  sends : ∀ x ∈ s.sends, x.pending = false
  /-- a caller that returned 0 has what the firmware produced for its command -/
  own : ∀ t, s.phase t = .returned .ok → s.reused t = false →
    ∃ a, (t, a) ∈ s.answered ∧ s.result t = a.result 0 (s.params t).dataDstSize

def McpPhase.live : McpPhase → Bool
  | .waiting _ | .expired => true
  | .idle | .occupied _ | .returned _ => false

/-- A pending command whose number is not in use for something else: a response with its number is
the answer to it. -/
structure McpSys.Awaits (s : McpSys) (e : McpCmdElem) : Prop where
  unanswered : ∀ p ∈ s.unanswered, p.2 = e.expectedSeqNum → p.1 = e.caller
  response : seqNumber s.mb.fwMbHeader = e.expectedSeqNum →
    ∃ a, (e.caller, a) ∈ s.answered ∧ ∀ n, s.mb.response n = a.result e.expectedSeqNum n

/-- The result of a caller is stored, with the sequence number in the low bits of the header. -/
def McpSys.Stored (s : McpSys) (t : ℕ) : Prop :=
  ∃ a low, (t, a) ∈ s.answered ∧ low < 2 ^ 16 ∧ s.result t = a.result low (s.params t).dataDstSize

/-- The list is in order, and has an element for each caller that waits for a response. -/
structure McpTidy (s : McpSys) : Prop where
  ordered : s.info.Ordered
  live : ∀ t, (s.phase t).live ↔ t ∈ s.info.cmdList.map McpCmdElem.caller

structure McpInv (s : McpSys) : Prop extends McpSound s, McpTidy s where
  seq_lt : s.info.drvMbSeq < 2 ^ 16
  unanswered_lt : ∀ p ∈ s.unanswered, p.2 < 2 ^ 16
  stored : ∀ e ∈ s.info.cmdList, e.isCompleted → s.reused e.caller = false → s.Stored e.caller
  awaits : ∀ e ∈ s.info.cmdList, e.isCompleted = false → s.reused e.caller = false → s.Awaits e

section Parts

variable {s : McpSys} {t : ℕ}

/-! ## The list -/

variable {info : McpInfo} {e : McpCmdElem}

theorem McpInfo.Ordered.head (h : info.Ordered) (he : e ∈ info.cmdList)
    (hc : e.isCompleted = false) :
    (∃ l, info.cmdList = e :: l) ∧ e.expectedSeqNum = info.drvMbSeq := by
  unfold Ordered at h
  cases hl : info.cmdList with
  | nil =>
    rw [hl] at he
    nomatch he
  | cons x l =>
    rw [hl] at h he
    rcases mem_cons.mp he with rfl | hmem
    · exact ⟨⟨l, rfl⟩, h.2 hc⟩
    · exact absurd (h.1 e hmem) (by simp [hc])

theorem ordered_of_completed (h : ∀ e ∈ info.cmdList, e.isCompleted) : info.Ordered := by
  unfold Ordered
  split
  · trivial
  case h_2 e l hl =>
    rw [hl] at h
    have he := h e mem_cons_self
    exact ⟨fun x hx => h x (mem_cons_of_mem e hx), by simp [he]⟩

theorem McpInfo.Ordered.del (h : info.Ordered) (t : ℕ) : (qedMcpCmdDelElem info t).Ordered := by
  cases hl : info.cmdList with
  | nil => simp [Ordered, qedMcpCmdDelElem, hl]
  | cons e l =>
    unfold Ordered at h
    rw [hl] at h
    by_cases he : e.caller = t
    · refine ordered_of_completed fun x hx => ?_
      have hx : x ∈ l.filter fun e => e.caller != t := by simpa [qedMcpCmdDelElem, hl, he] using hx
      exact h.1 x (mem_filter.mp hx).1
    · have hdel : (qedMcpCmdDelElem info t).cmdList = e :: l.filter fun e => e.caller != t := by
        simp [qedMcpCmdDelElem, hl, he]
      unfold Ordered
      rw [hdel]
      exact ⟨fun x hx => h.1 x (mem_filter.mp hx).1, h.2⟩

theorem mem_del : e ∈ (qedMcpCmdDelElem info t).cmdList ↔ e ∈ info.cmdList ∧ e.caller ≠ t := by
  simp [qedMcpCmdDelElem]

theorem mem_callers_del {t' : ℕ} :
    t' ∈ (qedMcpCmdDelElem info t).cmdList.map McpCmdElem.caller ↔
      t' ∈ info.cmdList.map McpCmdElem.caller ∧ t' ≠ t := by
  simp only [mem_map, mem_del]
  constructor
  · rintro ⟨e, ⟨he, hne⟩, rfl⟩
    exact ⟨⟨e, he, rfl⟩, hne⟩
  · rintro ⟨⟨e, he, rfl⟩, hne⟩
    exact ⟨e, ⟨he, hne⟩, rfl⟩

theorem mem_complete (h : e ∈ (info.complete t).cmdList) :
    e ∈ info.cmdList ∧ e.caller ≠ t ∨ e.isCompleted ∧ e.caller = t := by
  obtain ⟨x, hx, rfl⟩ := mem_map.mp h
  split
  case isTrue hc => exact .inr ⟨rfl, hc⟩
  case isFalse hc => exact .inl ⟨hx, hc⟩

theorem callers_complete (info : McpInfo) (t : ℕ) :
    (info.complete t).cmdList.map McpCmdElem.caller = info.cmdList.map McpCmdElem.caller := by
  unfold complete
  rw [map_map]
  refine map_congr_left fun e _ => ?_
  change (if e.caller = t then { e with isCompleted := true } else e).caller = e.caller
  split <;> rfl

theorem completed_of_not_pending (h : info.Ordered) (hp : qedMcpHasPendingCmd info = false) :
    ∀ e ∈ info.cmdList, e.isCompleted := by
  intro e he
  by_contra hc
  obtain ⟨⟨l, hl⟩, -⟩ := h.head he (by simpa using hc)
  unfold qedMcpHasPendingCmd at hp
  rw [hl] at hp
  exact hc (by simpa using hp)

/-! ## What a section does -/

theorem exists_pending (h : qedMcpHasPendingCmd info) :
    ∃ e ∈ info.cmdList, e.isCompleted = false := by
  unfold qedMcpHasPendingCmd at h
  split at h
  · nomatch h
  case h_2 e l hl => exact ⟨e, hl ▸ mem_cons_self, by simpa using h⟩

/-- The response in the mailbox is stored for a pending element. -/
def McpSys.store (s : McpSys) (e : McpCmdElem) : McpSys :=
  { s with
    info := s.info.complete e.caller
    result := update s.result e.caller (s.mb.response (s.params e.caller).dataDstSize) }

theorem update_of_pending (h : s.info.Ordered) (he : e ∈ s.info.cmdList)
    (hpend : e.isCompleted = false) :
    qedMcpUpdatePendingCmd s =
      if seqNumber s.mb.fwMbHeader = e.expectedSeqNum then (s.store e, .ok) else (s, .again) := by
  obtain ⟨⟨l, hl⟩, hseq⟩ := h.head he hpend
  unfold qedMcpUpdatePendingCmd
  by_cases heq : seqNumber s.mb.fwMbHeader = s.info.drvMbSeq
  · have hget : qedMcpCmdGetElem s.info (seqNumber s.mb.fwMbHeader) = some e := by
      simp [qedMcpCmdGetElem, hl, hseq, heq]
    rw [if_neg (not_not.mpr heq), hseq, if_pos heq, hget]
    rfl
  · rw [if_pos heq, hseq, if_neg heq]

theorem completed_store (h : s.info.Ordered) (he : e ∈ s.info.cmdList)
    (hpend : e.isCompleted = false) : ∀ x ∈ (s.store e).info.cmdList, x.isCompleted := by
  intro x hx
  rcases mem_complete hx with ⟨hmem, hne⟩ | ⟨hc, -⟩
  · by_contra hc
    -- an element that is not completed would be the head, which is `e`
    obtain ⟨⟨l, hl⟩, -⟩ := h.head he hpend
    obtain ⟨⟨l', hl'⟩, -⟩ := h.head hmem (by simpa using hc)
    exact hne (by rw [cons.inj (hl'.symm.trans hl) |>.1])
  · exact hc

/-- The state after a look at the mailbox: as it was, or with the response stored. -/
def McpSys.Polled (s s' : McpSys) : Prop :=
  s' = s ∨ ∃ e ∈ s.info.cmdList, e.isCompleted = false ∧
    seqNumber s.mb.fwMbHeader = e.expectedSeqNum ∧ s' = s.store e

inductive McpSys.Section (s : McpSys) (t : ℕ) (alloc : Bool) (reload : Option DrvMb) : McpSys → Prop
  | same : s.Section t alloc reload s
  | move {p : McpPhase} : (s.phase t).live = p.live → p ≠ .returned .ok →
      s.Section t alloc reload (s.setPhase t p)
  | send {s' : McpSys} (cnt : ℕ) : s.Polled s' → (∀ e ∈ s'.info.cmdList, e.isCompleted) →
      (s.phase t).live = false → s.Section t alloc reload (s'.send t cnt alloc reload)
  | finish {s' : McpSys} {e : McpCmdElem} : s.Polled s' → e ∈ s'.info.cmdList → e.isCompleted →
      e.caller = t → s.Section t alloc reload (s'.finish t)
  | giveUp : s.Section t alloc reload (s.giveUp t)

section

variable (h : McpTidy s)

include h

theorem section_occupiedTurn {cnt : ℕ} (hphase : s.phase t = .occupied cnt) (alloc : Bool)
    (reload : Option DrvMb) :
    s.Section t alloc reload (s.occupiedTurn t cnt alloc reload) := by
  have hlive : (s.phase t).live = false := by rw [hphase]; rfl
  unfold occupiedTurn
  split
  case isTrue hno =>
    exact .send cnt (.inl rfl) (completed_of_not_pending h.ordered (by simpa using hno)) hlive
  case isFalse hpend =>
    obtain ⟨e, he, hc⟩ := exists_pending (by simpa using hpend)
    rw [update_of_pending h.ordered he hc]
    by_cases hseq : seqNumber s.mb.fwMbHeader = e.expectedSeqNum
    · rw [if_pos hseq]
      exact .send cnt (.inr ⟨e, he, hc, hseq, rfl⟩) (completed_store h.ordered he hc) hlive
    · rw [if_neg hseq]
      refine .move ?_ ?_
      · rw [hlive]
        split <;> rfl
      · split <;> nofun

theorem section_waitingTurn {cnt : ℕ} (hphase : s.phase t = .waiting cnt) (alloc : Bool)
    (reload : Option DrvMb) :
    s.Section t alloc reload (s.waitingTurn t cnt) := by
  have hlive : (s.phase t).live = true := by rw [hphase]; rfl
  unfold waitingTurn
  split
  case isTrue hdone =>
    obtain ⟨e, he, hc⟩ := any_eq_true.mp hdone
    obtain ⟨hcaller, hcomp⟩ := and_eq_true_iff.mp hc
    exact .finish (.inl rfl) he hcomp (by simpa using hcaller)
  case isFalse hdone =>
    -- the element of the caller is the pending one
    obtain ⟨e, he, hcaller⟩ := mem_map.mp ((h.live t).mp hlive)
    have hc : e.isCompleted = false := by
      by_contra hcomp
      exact hdone (any_eq_true.mpr ⟨e, he, by simpa [hcaller] using hcomp⟩)
    rw [update_of_pending h.ordered he hc]
    by_cases hseq : seqNumber s.mb.fwMbHeader = e.expectedSeqNum
    · rw [if_pos hseq]
      have hmem : e.caller ∈ (s.info.complete e.caller).cmdList.map McpCmdElem.caller := by
        rw [callers_complete]
        exact mem_map_of_mem he
      obtain ⟨x, hx, hxt⟩ := mem_map.mp hmem
      exact .finish (.inr ⟨e, he, hc, hseq, rfl⟩) hx (completed_store h.ordered he hc x hx)
        (hxt.trans hcaller)
    · rw [if_neg hseq]
      refine .move ?_ ?_
      · rw [hlive]
        split <;> rfl
      · split <;> nofun

theorem section_lockSection (t : ℕ) (alloc : Bool) (reload : Option DrvMb) :
    s.Section t alloc reload (s.lockSection t alloc reload) := by
  unfold lockSection
  split
  case h_1 cnt hphase => exact section_occupiedTurn h hphase alloc reload
  case h_2 cnt hphase => exact section_waitingTurn h hphase alloc reload
  case h_3 => exact .giveUp
  case h_4 => exact .same
  case h_5 => exact .same

/-! ## The list in a section -/

/-- A caller that has no element moves on to another phase without one, or one that has to another
phase with one. -/
theorem McpTidy.setPhase {p : McpPhase} (hs : (s.phase t).live = p.live) :
    McpTidy (s.setPhase t p) := by
  refine ⟨h.ordered, fun t' => ?_⟩
  unfold McpSys.setPhase
  rcases eq_or_ne t' t with rfl | hne
  · rw [← h.live t', hs]
    simp
  · rw [← h.live t']
    simp [hne]

/-- As long as no command is pending, the sequence number and the mailbox may change. -/
theorem McpTidy.renumber (hc : ∀ e ∈ s.info.cmdList, e.isCompleted) (seq hist : ℕ) (mb : DrvMb) :
    McpTidy { s with mb := mb, info := { s.info with drvMbSeq := seq, mcpHist := hist } } :=
  ⟨ordered_of_completed hc, h.live⟩

end

theorem reread_same (s : McpSys) (reload : Option DrvMb) :
    (qedMcpRereadOffsets s reload).info.cmdList = s.info.cmdList ∧
      (qedMcpRereadOffsets s reload).phase = s.phase := by
  unfold qedMcpRereadOffsets
  split
  · exact ⟨rfl, rfl⟩
  · split <;> exact ⟨rfl, rfl⟩

theorem McpTidy.store (h : McpTidy s) (he : e ∈ s.info.cmdList) (hpend : e.isCompleted = false) :
    McpTidy (s.store e) := by
  refine ⟨ordered_of_completed (completed_store h.ordered he hpend), fun t => ?_⟩
  rw [McpSys.store, callers_complete]
  exact h.live t

theorem McpTidy.post (h : McpTidy s) (hc : ∀ e ∈ s.info.cmdList, e.isCompleted) (t cnt : ℕ) :
    McpTidy (s.post t cnt) := by
  refine ⟨⟨hc, fun _ => rfl⟩, fun t' => ?_⟩
  rcases eq_or_ne t' t with rfl | hne
  · simp [McpSys.post, qedMcpCmdAddElem, McpPhase.live]
  · simpa [McpSys.post, qedMcpCmdAddElem, hne] using h.live t'

def McpSys.remove (s : McpSys) (t : ℕ) (block : Bool) (rc : McpRc) (r : McpResult) : McpSys :=
  { s with
    info := { qedMcpCmdDelElem s.info t with blockCmd := block }
    phase := update s.phase t (.returned rc)
    result := update s.result t r }

theorem giveUp_eq_remove (s : McpSys) (t : ℕ) :
    s.giveUp t = s.remove t (if (s.params t).avoidBlock then s.info.blockCmd else true) .again
      (s.result t) := by
  unfold giveUp remove
  rw [update_eq_self]

theorem McpTidy.remove (h : McpTidy s) (t : ℕ) (block : Bool) (rc : McpRc) (r : McpResult) :
    McpTidy (s.remove t block rc r) := by
  refine ⟨h.ordered.del t, fun t' => ?_⟩
  change _ ↔ t' ∈ (qedMcpCmdDelElem s.info t).cmdList.map McpCmdElem.caller
  rw [mem_callers_del, ← h.live t']
  unfold McpSys.remove
  rcases eq_or_ne t' t with rfl | hne
  · simp [McpPhase.live]
  · simp [hne]

/-! ## The answers in a section -/

section

variable (h : McpInv s)

include h

theorem McpInv.setPhase {p : McpPhase} (hs : (s.phase t).live = p.live) (hp : p ≠ .returned .ok) :
    McpInv (s.setPhase t p) :=
  { h.toMcpTidy.setPhase hs, h with
    own := by
      intro t' hphase hre
      unfold McpSys.setPhase at hphase
      rcases eq_or_ne t' t with rfl | hne
      · exact absurd (by simpa using hphase) hp
      · exact h.own t' (by simpa [hne] using hphase) hre
    awaits := fun e he hc hre => { h.awaits e he hc hre with } }

theorem McpInv.renumber (hc : ∀ e ∈ s.info.cmdList, e.isCompleted) {seq hist : ℕ} {mb : DrvMb}
    (hseq : seq < 2 ^ 16) :
    McpInv { s with mb := mb, info := { s.info with drvMbSeq := seq, mcpHist := hist } } :=
  { h.toMcpTidy.renumber hc seq hist mb, h with
    seq_lt := hseq
    awaits := fun e he hpend => absurd (hc e he) (by simp [hpend]) }

/-- The response that is stored is the answer to the command. -/
theorem McpInv.store (he : e ∈ s.info.cmdList) (hpend : e.isCompleted = false)
    (hresp : seqNumber s.mb.fwMbHeader = e.expectedSeqNum) :
    McpInv (s.store e) := by
  have hcompl := completed_store h.ordered he hpend
  have hlt := (h.ordered.head he hpend).2 ▸ h.seq_lt
  refine
    { h.toMcpTidy.store he hpend, h with
      own := fun t hphase hre => ?_
      stored := fun x hx hc hre => ?_
      awaits := fun x hx hc => absurd (hcompl x hx) (by simp [hc]) }
  · -- the caller of the element has not returned
    have hne : t ≠ e.caller := by
      rintro rfl
      have hlive := (h.live e.caller).mpr (mem_map_of_mem he)
      rw [show s.phase e.caller = .returned .ok from hphase] at hlive
      nomatch hlive
    obtain ⟨a, ha, hres⟩ := h.own t hphase hre
    exact ⟨a, ha, (update_of_ne hne _ _).trans hres⟩
  · rcases eq_or_ne x.caller e.caller with hcal | hcal
    · obtain ⟨a, ha, hmb⟩ := (h.awaits e he hpend (hcal ▸ hre)).response hresp
      refine ⟨a, e.expectedSeqNum, hcal ▸ ha, hlt, ?_⟩
      rw [hcal, ← hmb]
      exact update_self ..
    · rcases mem_complete hx with ⟨hmem, -⟩ | ⟨-, hc'⟩
      · obtain ⟨a, low, ha, hlow, hres⟩ := h.stored x hmem hc hre
        exact ⟨a, low, ha, hlow, (update_of_ne hcal _ _).trans hres⟩
      · exact absurd hc' hcal

theorem McpInv.polled {s' : McpSys} (hp : s.Polled s') : McpInv s' := by
  rcases hp with rfl | ⟨e, he, hpend, hresp, rfl⟩
  · exact h
  · exact h.store he hpend hresp

section

variable (hc : ∀ e ∈ s.info.cmdList, e.isCompleted)

include hc

/-- A command is written when none is pending. -/
theorem McpInv.post (cnt : ℕ) (hphase : (s.phase t).live = false) : McpInv (s.post t cnt) := by
  have hother : ∀ e ∈ s.info.cmdList, e.caller ≠ t := by
    rintro e he rfl
    have hlive := (h.live e.caller).mpr (mem_map_of_mem he)
    simp [hphase] at hlive
  refine
    { h.toMcpTidy.post hc t cnt, h with
      sends := forall_mem_append.mpr ⟨h.sends, by simpa using hc⟩
      own := fun t' hret hre => ?_
      unanswered_lt := forall_mem_cons.mpr ⟨h.seq_lt, h.unanswered_lt⟩
      stored := fun e he hcomp hre => ?_
      awaits := fun e he hpend hre => ?_ }
  · have hne : t' ≠ t := by
      rintro rfl
      simp [post] at hret
    have hret : s.phase t' = .returned .ok := by simpa [McpSys.post, hne] using hret
    have hre : s.reused t' = false := by simpa [McpSys.post, hne] using hre
    exact h.own t' hret hre
  · rcases mem_cons.mp he with rfl | hmem
    · nomatch hcomp
    · exact h.stored e hmem hcomp (by simpa [McpSys.post, hother e hmem] using hre)
  · rcases mem_cons.mp he with rfl | hmem
    · have huse : s.seqInUse s.info.drvMbSeq = false := by simpa [McpSys.post] using hre
      unfold seqInUse at huse
      obtain ⟨hfw, hun⟩ := or_eq_false_iff.mp huse
      have hfw : seqNumber s.mb.fwMbHeader ≠ s.info.drvMbSeq := by simpa using hfw
      refine ⟨forall_mem_cons.mpr ⟨fun _ => rfl, fun p hp heq => ?_⟩, fun heq => absurd heq hfw⟩
      exact absurd heq (by simpa using any_eq_false.mp hun p hp)
    · exact absurd (hc e hmem) (by simp [hpend])

theorem McpInv.reread (reload : Option DrvMb) : McpInv (qedMcpRereadOffsets s reload) := by
  unfold qedMcpRereadOffsets
  split
  · exact h
  · split
    · exact h
    · exact h.renumber hc (mod_lt _ (by decide))

theorem McpInv.send (cnt : ℕ) (alloc : Bool) (reload : Option DrvMb)
    (hphase : (s.phase t).live = false) :
    McpInv (s.send t cnt alloc reload) := by
  obtain ⟨hlist, hph⟩ := reread_same s reload
  have hnext : McpInv (qedMcpRereadOffsets s reload).nextSeq :=
    (h.reread hc reload).renumber (hlist ▸ hc) (mod_lt _ (by decide))
  have hlive := hph ▸ hphase
  unfold McpSys.send
  split
  · exact hnext.post (hlist ▸ hc) cnt hlive
  · exact hnext.setPhase hlive nofun

end

/-- A caller that returns 0 takes the answer to its command with it. -/
theorem McpInv.remove (t : ℕ) (block : Bool) (rc : McpRc) (r : McpResult)
    (hr : rc = .ok → s.reused t = false →
      ∃ a, (t, a) ∈ s.answered ∧ r = a.result 0 (s.params t).dataDstSize) :
    McpInv (s.remove t block rc r) :=
  { h.toMcpTidy.remove t block rc r, h with
    own := by
      intro t' hret hre
      unfold McpSys.remove at hret ⊢
      dsimp only at hret ⊢
      rcases eq_or_ne t' t with rfl | hne
      · rw [update_self] at hret ⊢
        exact hr (returned.inj hret) hre
      · rw [update_of_ne hne] at hret ⊢
        exact h.own t' hret hre
    stored := by
      intro e he hcomp hre
      obtain ⟨hmem, hne⟩ := mem_del.mp he
      obtain ⟨a, low, ha, hlow, hres⟩ := h.stored e hmem hcomp hre
      exact ⟨a, low, ha, hlow, (update_of_ne hne _ _).trans hres⟩
    awaits := fun e he hpend hre => { h.awaits e (mem_del.mp he).1 hpend hre with } }

end

theorem fwMsgCode_result (a : McpAnswer) {low : ℕ} (hlow : low < 2 ^ 16) (n : ℕ) :
    { a.result low n with mcpResp := fwMsgCode (a.result low n).mcpResp } = a.result 0 n := by
  have hcode : fwMsgCode (a.code * 2 ^ 16 + low) = a.code * 2 ^ 16 := by
    unfold fwMsgCode
    omega
  unfold McpAnswer.result
  rw [hcode, Nat.add_zero]

section

variable (h : McpInv s)

include h

theorem McpInv.finish (he : e ∈ s.info.cmdList) (hcomp : e.isCompleted) (hcaller : e.caller = t) :
    McpInv (s.finish t) := by
  subst hcaller
  refine h.remove _ _ _ _ fun _ hre => ?_
  obtain ⟨a, low, ha, hlow, hres⟩ := h.stored e he hcomp hre
  refine ⟨a, ha, ?_⟩
  rw [hres]
  exact fwMsgCode_result a hlow _

theorem McpInv.lockSection (t : ℕ) (alloc : Bool) (reload : Option DrvMb) :
    McpInv (s.lockSection t alloc reload) := by
  have hsec := section_lockSection h.toMcpTidy t alloc reload
  generalize s.lockSection t alloc reload = r at hsec ⊢
  cases hsec with
  | same => exact h
  | move hs hp => exact h.setPhase hs hp
  | send cnt hp hc hlive =>
    refine (h.polled hp).send hc cnt alloc reload ?_
    rcases hp with rfl | ⟨e, -, -, -, rfl⟩
    · exact hlive
    · exact hlive
  | finish hp he hcomp hcaller => exact (h.polled hp).finish he hcomp hcaller
  | giveUp =>
    rw [giveUp_eq_remove]
    exact h.remove _ _ _ _ nofun

/-! ## The firmware -/

theorem McpInv.answer (i : ℕ) (a : McpAnswer) : McpInv (s.step (.answer i a)) := by
  rw [step]
  split
  · exact h
  case h_2 p hp =>
    have hmem : p ∈ s.unanswered := mem_of_getElem? hp
    have hlog : ∀ x ∈ s.answered, x ∈ s.answered ++ [(p.1, a)] := fun x =>
      mem_append_left [(p.1, a)]
    refine
      { h with
        own := fun t hret hre => ?_
        unanswered_lt := fun q hq => h.unanswered_lt q (mem_of_mem_eraseIdx hq)
        stored := fun e he hcomp hre => ?_
        awaits := fun e he hpend hre => ?_ }
    · obtain ⟨b, hb, hres⟩ := h.own t hret hre
      exact ⟨b, hlog _ hb, hres⟩
    · obtain ⟨b, low, hb, hrest⟩ := h.stored e he hcomp hre
      exact ⟨b, low, hlog _ hb, hrest⟩
    · have hold := h.awaits e he hpend hre
      refine ⟨fun q hq => hold.unanswered q (mem_of_mem_eraseIdx hq), fun hseq => ?_⟩
      have hnum : p.2 = e.expectedSeqNum := by
        have hlt := h.unanswered_lt p hmem
        have hseq : (a.code * 2 ^ 16 + p.2) % 2 ^ 16 = e.expectedSeqNum := hseq
        omega
      refine ⟨a, ?_, fun n => ?_⟩
      · rw [← hold.unanswered p hmem hnum]
        exact mem_append_right _ (mem_singleton.mpr rfl)
      · rw [← hnum]
        rfl

theorem McpInv.reboot (por : ℕ) (mb : DrvMb) (keeps : ℕ → Bool) :
    McpInv (s.step (.reboot por mb keeps)) := by
  refine { h with
    own := fun t hret hre => h.own t hret (or_eq_false_iff.mp hre).1
    unanswered_lt := fun p hp => h.unanswered_lt p (mem_filter.mp hp).1
    stored := fun e he hcomp hre => h.stored e he hcomp (or_eq_false_iff.mp hre).1
    awaits := fun e he hpend hre => ?_ }
  obtain ⟨hre, hnum⟩ := or_eq_false_iff.mp hre
  refine ⟨fun p hp => (h.awaits e he hpend hre).unanswered p (mem_filter.mp hp).1, fun hseq => ?_⟩
  have hno : e.expectedSeqNum ≠ seqNumber mb.fwMbHeader := by
    simpa [hpend] using any_eq_false.mp hnum e he
  exact absurd hseq.symm hno

theorem McpInv.step (a : McpStep) : McpInv (s.step a) := by
  cases a with
  | call t me =>
    rw [McpSys.step]
    split
    case isTrue hidle =>
      refine h.setPhase ?_ ?_
      · rw [hidle]
        split <;> rfl
      · split <;> nofun
    case isFalse => exact h
  | lockSection t alloc reload => exact h.lockSection t alloc reload
  | answer i a => exact h.answer i a
  | reboot por mb keeps => exact h.reboot por mb keeps

end

end Parts

variable {s : McpSys}

theorem McpSys.Fresh.inv (h : s.Fresh) : McpInv s := by
  have hnil := h.cmdList
  refine
    { ordered := ordered_of_completed (by simp [hnil])
      sends := by simp [h.sends]
      own := fun t hret => absurd hret (by simp [h.phase t])
      seq_lt := h.drvMbSeq
      unanswered_lt := by simp [h.unanswered]
      live := fun t => by simp [h.phase t, hnil, live]
      stored := by simp [hnil]
      awaits := by simp [hnil] }

/-- **One command in flight, and the right answer to each caller.** In every run of callers and
firmware, at most one element of the list is not completed, it is the head and expects `drv_mb_seq`,
no command is written while another one is pending, and a caller that returns 0 has the answer of
the firmware to its own command if its sequence number was not in use for something else. -/
theorem mcpSound_run {s : McpSys} (hs : s.Fresh) (l : List McpStep) :
    McpSound (l.foldl step s) :=
  (foldlRecOn (motive := McpInv) l step hs.inv fun _ h a _ => h.step a).toMcpSound

/-! ## A sequence number comes round again -/

/-- The driver at sequence number 0, with a mailbox of zeros. -/
def mcpBegin : McpSys where
  info := ⟨[], 0, 0, false⟩
  mb := ⟨0, 0, 0, 0, fun _ => 0⟩
  genericPor0 := 0
  params := fun _ => ⟨0x10000, 0, [], 0, false, 1000, by decide⟩
  phase := fun _ => .idle
  result := fun _ => ⟨0, 0, []⟩
  unanswered := []
  answered := []
  sends := []
  reused := fun _ => false

theorem mcpBegin_fresh : mcpBegin.Fresh := ⟨rfl, by decide, fun _ => rfl, rfl, rfl⟩

/-- A caller sends a command that is answered, and a second one waits for it and sends its own. -/
theorem mcpSound_twoCallers :
    McpSound (([.call 0 true, .call 1 true, .lockSection 0 true none, .lockSection 1 true none,
      .answer 0 ⟨7, 0, fun _ => 0⟩, .lockSection 1 true none, .lockSection 0 true none] :
        List McpStep).foldl step mcpBegin) :=
  mcpSound_run mcpBegin_fresh _

def mcpNoMemory (t : ℕ) : List McpStep := [.call t true, .lockSection t false none]

/-- Caller 0 sends a command that is answered. -/
def mcpFirst : List McpStep :=
  [.call 0 true, .lockSection 0 true none, .answer 0 ⟨7, 0, fun _ => 0⟩, .lockSection 0 true none]

/-- The commands of callers 0 and `n + 1`; the calls in between find no memory. The firmware answers
the first command only. -/
def mcpRound (n : ℕ) : List McpStep :=
  mcpFirst ++ (range n).flatMap (fun i => mcpNoMemory (i + 1)) ++
    [.call (n + 1) true, .lockSection (n + 1) true none, .lockSection (n + 1) true none]

/-- No command is pending, and the callers behind `n` have not called. -/
structure McpSys.QuietFrom (s : McpSys) (n : ℕ) : Prop where
  cmdList : s.info.cmdList = []
  mcpHist : s.info.mcpHist = s.genericPor0
  idle : ∀ t, n < t → s.phase t = .idle

theorem McpSys.QuietFrom.noMemory {n : ℕ} (h : s.QuietFrom n) :
    (mcpNoMemory (n + 1)).foldl step s = s.nextSeq.setPhase (n + 1) (.returned .nomem) := by
  simp [mcpNoMemory, step, lockSection, setPhase, occupiedTurn,
    send, qedMcpHasPendingCmd, qedMcpRereadOffsets, nextSeq, h.cmdList, h.mcpHist,
    h.idle (n + 1) (lt_succ_self n)]

/-- Calls without memory only use up sequence numbers. -/
theorem McpSys.QuietFrom.foldl_noMemory (h : s.QuietFrom 0) (hseq : s.info.drvMbSeq < 2 ^ 16)
    (n : ℕ) :
    let s' := ((range n).flatMap fun i => mcpNoMemory (i + 1)).foldl step s
    s'.QuietFrom n ∧ s'.info.drvMbSeq = (s.info.drvMbSeq + n) % 2 ^ 16 ∧ s'.mb = s.mb ∧
      s'.answered = s.answered := by
  induction n with
  | zero => exact ⟨h, (mod_eq_of_lt hseq).symm, rfl, rfl⟩
  | succ n ih =>
    obtain ⟨hq, hnum, hmb, hlog⟩ := ih
    rw [range_succ, flatMap_append, flatMap_singleton, foldl_append, hq.noMemory]
    refine ⟨⟨hq.cmdList, hq.mcpHist, fun t ht => ?_⟩, ?_, hmb, hlog⟩
    · exact (update_of_ne (by omega) _ _).trans (hq.idle t (by omega))
    · change (_ + 1) % 2 ^ 16 = _
      rw [hnum]
      omega

/-- A command whose number is in the mailbox returns 0 at once, and the firmware has answered
nothing. -/
theorem foldl_oldResponse {n t : ℕ} (h : s.QuietFrom n) (ht : n < t)
    (hold : seqNumber s.mb.fwMbHeader = (s.info.drvMbSeq + 1) % 2 ^ 16) :
    (([.call t true, .lockSection t true none, .lockSection t true none] : List McpStep).foldl
        step s).phase t = .returned .ok ∧
      (([.call t true, .lockSection t true none, .lockSection t true none] : List McpStep).foldl
        step s).answered = s.answered := by
  simp [step, lockSection, setPhase, occupiedTurn, send,
    post, waitingTurn, finish, isCompleted, qedMcpHasPendingCmd,
    qedMcpRereadOffsets, nextSeq, qedMcpUpdatePendingCmd, qedMcpCmdGetElem, qedMcpCmdAddElem,
    DrvMb.command, h.cmdList, h.mcpHist, h.idle t ht, hold]

/-- When the sequence numbers come round, the last caller takes the response to the first command
for its own, although the firmware has not answered its command. -/
theorem mcpRound_oldResponse {n : ℕ} (hn : (n + 1) % 2 ^ 16 = 0) :
    ((mcpRound n).foldl step mcpBegin).phase (n + 1) = .returned .ok ∧
      ∀ a, (n + 1, a) ∉ ((mcpRound n).foldl step mcpBegin).answered := by
  have hquiet : (mcpFirst.foldl step mcpBegin).QuietFrom 0 := by
    refine ⟨rfl, rfl, fun t ht => ?_⟩
    have ht : t ≠ 0 := Nat.ne_of_gt ht
    change update (update (update (fun _ => idle) 0 _) 0 _) 0 _ t = idle
    rw [update_of_ne ht, update_of_ne ht, update_of_ne ht]
  have hseq : (mcpFirst.foldl step mcpBegin).info.drvMbSeq = 1 := rfl
  have hresp : seqNumber (mcpFirst.foldl step mcpBegin).mb.fwMbHeader = 1 := rfl
  have hlog : (mcpFirst.foldl step mcpBegin).answered = [(0, ⟨7, 0, fun _ => 0⟩)] := rfl
  obtain ⟨hquiet, hnum, hmb, hsame⟩ := hquiet.foldl_noMemory (by omega) n
  obtain ⟨hphase, hans⟩ := foldl_oldResponse hquiet (lt_succ_self n) (by
    rw [hmb, hnum]
    omega)
  rw [mcpRound, foldl_append, foldl_append]
  refine ⟨hphase, ?_⟩
  rw [hans, hsame, hlog]
  simp

/-- After 65535 calls without memory a caller returns 0 and has no answer. -/
theorem not_own_mcpRound :
    ¬ ∀ t, ((mcpRound 65535).foldl step mcpBegin).phase t = .returned .ok →
      ∃ a, (t, a) ∈ ((mcpRound 65535).foldl step mcpBegin).answered := by
  intro h
  obtain ⟨hphase, hno⟩ := mcpRound_oldResponse (n := 65535) (by decide)
  obtain ⟨a, ha⟩ := h _ hphase
  exact hno a ha

end FastLinQ.Qed
