import FastLinQ.Foundations.Run
import FastLinQ.Qed.Mcp.Order

/-!
# Elements and their callers

The elements of `cmd_list` point to parameters on the stack of their callers, so an element has to
be gone when its caller returns. One exit of `_qed_mcp_cmd_and_union` leaves it: the one for an
error of `qed_mcp_update_pending_cmd` in the loop that waits for the response. That error needs a
response with the number `drv_mb_seq` that no element expects, and `qed_mcp_reset` can bring it
about, as it takes a sequence number while a command is pending.

`mcpReleased_run` is the statement for runs in which no caller finds such a response, whatever the
firmware writes to the mailbox.
-/

namespace FastLinQ.Qed

open Run List Function McpSys

def DRV_MSG_CODE_MCP_RESET : ℕ := 0x0009 <<< 16

/-- The section of `qed_mcp_reset`, for a call that has passed the check of `b_block_cmd`. -/
def qedMcpReset (s : McpSys) (reload : Option DrvMb) : McpSys :=
  let s := (qedMcpRereadOffsets s reload).nextSeq
  { s with mb := { s.mb with drvMbHeader := DRV_MSG_CODE_MCP_RESET ||| s.info.drvMbSeq } }

inductive McpResetStep
  | cmd (a : McpStep)
  | reset (reload : Option DrvMb)
  /-- The firmware writes anything to the mailbox. -/
  | mfw (mb : DrvMb)

def McpSys.resetStep (s : McpSys) : McpResetStep → McpSys
  | .cmd a => s.step a
  | .reset reload => qedMcpReset s reload
  | .mfw mb => { s with mb := mb }

structure McpReleased (s : McpSys) : Prop where
  /-- the element of a caller that has returned is not on the list -/
  removed : ∀ t rc, s.phase t = .returned rc → ∀ e ∈ s.info.cmdList, e.caller ≠ t
  /-- nothing is written through the parameters of a caller that has returned -/
  untouched : ∀ t rc, s.phase t = .returned rc → (qedMcpUpdatePendingCmd s).1.result t = s.result t
  /-- the command that keeps others waiting is the one of a caller that has not returned -/
  pending : ∀ e l, s.info.cmdList = e :: l → e.isCompleted = false →
    ∀ rc, s.phase e.caller ≠ .returned rc

/-- A caller that looks for the response to its command, and finds the number `drv_mb_seq` there,
finds an element that expects it. -/
def McpResetStep.Matched (s : McpSys) : McpResetStep → Prop
  | .cmd (.lockSection t _ _) =>
    ∀ cnt, s.phase t = .waiting cnt → s.info.isCompleted t = false →
      seqNumber s.mb.fwMbHeader = s.info.drvMbSeq →
      (qedMcpCmdGetElem s.info s.info.drvMbSeq).isSome
  | _ => True

/-- The callers of the elements have not returned. -/
def McpSys.Listed (s : McpSys) : Prop := ∀ e ∈ s.info.cmdList, (s.phase e.caller).live

section Parts

variable {s : McpSys} {t : ℕ}

theorem McpSys.Listed.released (h : s.Listed) : McpReleased s := by
  have hremoved : ∀ t rc, s.phase t = .returned rc → ∀ e ∈ s.info.cmdList, e.caller ≠ t := by
    rintro t rc hret e he rfl
    have hlive := h e he
    rw [hret] at hlive
    nomatch hlive
  refine ⟨hremoved, fun t rc hret => ?_, fun e l hl _ rc hret => ?_⟩
  · unfold qedMcpUpdatePendingCmd
    split
    · rfl
    · split
      · rfl
      case h_2 e hget =>
        exact update_of_ne (hremoved t rc hret e (mem_of_find?_eq_some hget)).symm _ _
  · exact hremoved e.caller rc hret e (hl ▸ mem_cons_self) rfl

/-! ## The sections -/

/-- A caller without an element, or one that goes on waiting, moves on. -/
theorem McpSys.Listed.setPhase (h : s.Listed) {p : McpPhase} (hp : (s.phase t).live → p.live) :
    (s.setPhase t p).Listed := by
  intro e he
  have hold := h e he
  unfold McpSys.setPhase
  rcases eq_or_ne e.caller t with heq | hne
  · rw [heq] at hold ⊢
    simpa using hp hold
  · simpa [hne] using hold

theorem McpSys.Listed.update (h : s.Listed) : (qedMcpUpdatePendingCmd s).1.Listed := by
  unfold qedMcpUpdatePendingCmd
  split
  · exact h
  · split
    · exact h
    case h_2 x _ =>
      intro e he
      have hmem : e.caller ∈ (s.info.complete x.caller).cmdList.map McpCmdElem.caller :=
        mem_map_of_mem he
      rw [callers_complete] at hmem
      obtain ⟨e', he', heq⟩ := mem_map.mp hmem
      exact heq ▸ h e' he'

theorem update_phase (s : McpSys) : (qedMcpUpdatePendingCmd s).1.phase = s.phase := by
  unfold qedMcpUpdatePendingCmd
  split
  · rfl
  · split <;> rfl

section

variable (h : s.Listed)

include h

theorem McpSys.Listed.nextSeq (reload : Option DrvMb) :
    (qedMcpRereadOffsets s reload).nextSeq.Listed := by
  obtain ⟨hlist, hphase⟩ := reread_same s reload
  intro e he
  change ((qedMcpRereadOffsets s reload).phase e.caller).live
  rw [hphase]
  exact h e (hlist ▸ he)

theorem McpSys.Listed.post (t cnt : ℕ) : (s.post t cnt).Listed := by
  intro e he
  change (Function.update s.phase t (.waiting cnt) e.caller).live
  rcases eq_or_ne e.caller t with heq | hne
  · rw [heq, update_self]
    rfl
  · rw [update_of_ne hne]
    rcases mem_cons.mp he with rfl | hmem
    · exact absurd rfl hne
    · exact h e hmem

theorem McpSys.Listed.send (cnt : ℕ) (alloc : Bool) (reload : Option DrvMb)
    (hphase : (s.phase t).live = false) : (s.send t cnt alloc reload).Listed := by
  have hlive : ((qedMcpRereadOffsets s reload).nextSeq.phase t).live = false := by
    change ((qedMcpRereadOffsets s reload).phase t).live = false
    rw [(reread_same s reload).2, hphase]
  unfold McpSys.send
  split
  · exact (h.nextSeq reload).post t cnt
  · exact (h.nextSeq reload).setPhase (by simp [hlive])

theorem McpSys.Listed.remove (t : ℕ) (block : Bool) (rc : McpRc) (r : McpResult) :
    (s.remove t block rc r).Listed := by
  intro e he
  obtain ⟨hmem, hne⟩ := mem_del.mp he
  change (Function.update s.phase t (.returned rc) e.caller).live
  rw [update_of_ne hne]
  exact h e hmem

theorem McpSys.Listed.occupiedTurn {cnt : ℕ} (hphase : s.phase t = .occupied cnt) (alloc : Bool)
    (reload : Option DrvMb) : (s.occupiedTurn t cnt alloc reload).Listed := by
  have hlive : (s.phase t).live = false := by rw [hphase]; rfl
  have hupd := h.update
  have hlive' : ((qedMcpUpdatePendingCmd s).1.phase t).live = false := by rw [update_phase, hlive]
  unfold McpSys.occupiedTurn
  split
  · exact h.send cnt alloc reload hlive
  · split
    case h_1 heq =>
      rw [heq] at hupd hlive'
      exact hupd.send cnt alloc reload hlive'
    case h_2 heq =>
      rw [heq] at hupd hlive'
      exact hupd.setPhase (by simp [hlive'])
    case h_3 heq =>
      rw [heq] at hupd hlive'
      exact hupd.setPhase (by simp [hlive'])

/-- The one exit that leaves the element is not taken if the response is matched. -/
theorem McpSys.Listed.waitingTurn {cnt : ℕ}
    (hok : s.info.isCompleted t = false → seqNumber s.mb.fwMbHeader = s.info.drvMbSeq →
      (qedMcpCmdGetElem s.info s.info.drvMbSeq).isSome) :
    (s.waitingTurn t cnt).Listed := by
  have hupd := h.update
  unfold McpSys.waitingTurn
  split
  · exact h.remove _ _ _ _
  case isFalse hdone =>
    split
    case h_1 heq =>
      rw [heq] at hupd
      exact hupd.remove _ _ _ _
    case h_2 heq =>
      rw [heq] at hupd
      refine hupd.setPhase fun _ => ?_
      split <;> rfl
    case h_3 rc hne hne' heq =>
      exfalso
      unfold qedMcpUpdatePendingCmd at heq
      split at heq
      · exact hne' (Prod.mk.inj heq).2.symm
      case isFalse hseq =>
        have hseq := Decidable.not_not.mp hseq
        obtain ⟨e, he⟩ := Option.isSome_iff_exists.mp (hok (by simpa using hdone) hseq)
        rw [hseq, he] at heq
        exact hne (Prod.mk.inj heq).2.symm

theorem McpSys.Listed.resetStep {a : McpResetStep} (hok : a.Matched s) :
    (s.resetStep a).Listed := by
  cases a with
  | cmd a =>
    cases a with
    | call t me =>
      change (s.step (.call t me)).Listed
      rw [step]
      split
      case isTrue hidle => exact h.setPhase (by simp [hidle, McpPhase.live])
      case isFalse => exact h
    | lockSection t alloc reload =>
      change (s.lockSection t alloc reload).Listed
      unfold lockSection
      split
      case h_1 cnt hphase => exact h.occupiedTurn hphase alloc reload
      case h_2 cnt hphase => exact h.waitingTurn (hok cnt hphase)
      case h_3 =>
        rw [giveUp_eq_remove]
        exact h.remove _ _ _ _
      case h_4 => exact h
      case h_5 => exact h
    | answer i a =>
      change (s.step (.answer i a)).Listed
      rw [step]
      split
      · exact h
      · exact h
    | reboot por mb keeps => exact h
  | reset reload => exact h.nextSeq reload
  | mfw mb => exact h

end

end Parts

/-- **No element outlives its caller.** In every run of callers and resets, with any firmware, in
which a caller that looks for its response never finds the number `drv_mb_seq` without an element
that expects it, the element of a caller that has returned is not on the list. -/
theorem mcpReleased_run {s : McpSys} (hs : s.Fresh) {l : List McpResetStep}
    (hrun : Meets (fun s a => McpResetStep.Matched s a) resetStep s l) :
    McpReleased (l.foldl resetStep s) := by
  have hstart : s.Listed := fun e he => absurd he (by simp [hs.cmdList])
  exact (hrun.invariant (P := McpSys.Listed) (fun _ _ h hok => h.resetStep hok) hstart).released

/-- A reset between two commands, and one while a command is pending that times out. -/
theorem mcpReleased_mcpBegin :
    McpReleased (([.cmd (.call 0 true), .cmd (.lockSection 0 true none),
      .cmd (.answer 0 ⟨7, 0, fun _ => 0⟩), .cmd (.lockSection 0 true none), .reset none,
      .cmd (.call 1 true), .cmd (.lockSection 1 true none), .reset none,
      .cmd (.lockSection 1 true none)] : List McpResetStep).foldl resetStep mcpBegin) := by
  refine mcpReleased_run mcpBegin_fresh
    ⟨trivial, ?_, trivial, ?_, trivial, trivial, ?_, trivial, ?_, trivial⟩
  · intro cnt hphase
    nomatch hphase
  · intro _ _ _ _
    rfl
  · intro cnt hphase
    nomatch hphase
  · intro _ _ _ hseq
    nomatch hseq

/-- A reset takes a number while a command is pending, and the firmware answers the reset: the
caller returns `-EINVAL`, and its element stays. -/
theorem not_mcpReleased_mcpBegin :
    ¬ McpReleased (([.cmd (.call 0 true), .cmd (.lockSection 0 true none), .reset none,
      .mfw ⟨0, 0, 2, 0, fun _ => 0⟩, .cmd (.lockSection 0 true none)] : List McpResetStep).foldl
        resetStep mcpBegin) := fun h =>
  absurd rfl (h.removed 0 .inval rfl ⟨0, 1, false⟩ (mem_singleton.mpr rfl))

end FastLinQ.Qed
