import FastLinQ.Foundations.Run
import FastLinQ.Foundations.Word

/-!
# Minimum rates of the vports

`qed_init_wfq_param` admits a minimum rate for a vport if the rates that are configured then stay
within the minimum rate of the PF, and leave at least one percent of it to every other vport. It
adds them up in 32 bits, so rates with a sum of `2 ^ 32` or more can be admitted.

The weights that are computed from the rates (`qed_configure_wfq_for_all_vports`) are not modelled.
-/

namespace FastLinQ.Qed

open Finset Function Nat

/-- `struct qed_wfq_data`, without the default speed, which is not read. -/
structure WfqData where
  minSpeed : ℕ
  configured : Bool

/-- The part of the QM information that WFQ uses. -/
structure WfqTable where
  numVports : ℕ
  /-- `PQ_FLAGS_PQSET` is set -/
  pqset : Bool
  numPqset : ℕ
  startPqsetNum : ℕ
  /-- `qed_init_qm_get_num_tcs` -/
  maxTc : ℕ
  wfqData : ℕ → WfqData

def wfqUnit : ℕ := 10000 + 256

/-- `QED_WEIGHT_IN_WFQ_GRANULARITY` of the percentage that a rate is of the PF's. -/
def weightInWfqGranularity (rate minPfRate : ℕ) : ℕ :=
  wfqUnit * (rate * 100 % 2 ^ 32 / minPfRate) % 2 ^ 32 / 100

/-- The 32-bit product can only be too low, so a rate with a weight is one percent or more. -/
theorem le_of_weight_ne_zero {rate minPfRate : ℕ} (h : weightInWfqGranularity rate minPfRate ≠ 0) :
    minPfRate ≤ 100 * rate := by
  by_contra hlt
  have hdiv : rate * 100 % 2 ^ 32 / minPfRate = 0 := div_eq_of_lt (by omega)
  exact h (by rw [weightInWfqGranularity, hdiv]; rfl)

/-- `left_rate_per_vp`, from the requested total and `non_requested_count`. -/
def leftRatePerVp (minPfRate total count : ℕ) : ℕ :=
  if count ≠ 0 ∧ minPfRate ≠ 0 then (minPfRate - total) / count else 0

namespace WfqTable

variable (t : WfqTable) (vport : ℕ)

def numPqsetVports : ℕ :=
  if t.numPqset = 0 then 0
  else (t.numPqset * t.maxTc + if t.startPqsetNum ≠ 0 then t.maxTc else 1) % 2 ^ 16

def numDefaultVports : ℕ :=
  if t.pqset then Word.sub 16 t.numVports t.numPqsetVports else t.numVports

/-- One round of the accounting: the sum of the configured rates, and `non_requested_count`. -/
def account (acc : ℕ × ℕ) (i : ℕ) : ℕ × ℕ :=
  if i ≠ vport ∧ (t.wfqData i).configured then
    ((acc.1 + (t.wfqData i).minSpeed) % 2 ^ 32, acc.2)
  else if i ≠ vport ∧ i < t.numDefaultVports then (acc.1, acc.2 + 1)
  else acc

def assign (reqRate left : ℕ) : WfqTable :=
  { t with
    wfqData := fun i =>
      let d := update t.wfqData vport ⟨reqRate, true⟩ i
      if i < t.numVports ∧ d.configured = false then
        { d with minSpeed := if i < t.numDefaultVports then left else 0 }
      else d }

/-- `qed_init_wfq_param`: whether the rate is admitted, and the table afterwards. -/
def qedInitWfqParam (reqRate minPfRate : ℕ) : Bool × WfqTable :=
  let acc := (List.range t.numVports).foldl (t.account vport) (0, 0)
  let totalReqMinRate := (acc.1 + reqRate) % 2 ^ 32
  let left := leftRatePerVp minPfRate totalReqMinRate acc.2
  if minPfRate ≠ 0 ∧ reqRate ≠ 0 ∧ weightInWfqGranularity reqRate minPfRate = 0 then (false, t)
  else if minPfRate < totalReqMinRate then (false, t)
  else if acc.2 ≠ 0 ∧ minPfRate ≠ 0 ∧ weightInWfqGranularity left minPfRate = 0 then (false, t)
  else (true, t.assign vport reqRate left)

def reserved (i : ℕ) : ℕ := if (t.wfqData i).configured then (t.wfqData i).minSpeed else 0

def configuredSum : ℕ := ∑ i ∈ range t.numVports, t.reserved i

/-- The exact sum with a new rate for a vport. -/
def requestedSum (rate : ℕ) : ℕ := (∑ i ∈ range t.numVports, update t.reserved vport 0 i) + rate

variable {t vport}

theorem sum_update_le (rate : ℕ) :
    ∑ i ∈ range t.numVports, update t.reserved vport rate i ≤ t.requestedSum vport rate := by
  by_cases hv : vport ∈ range t.numVports
  · rw [requestedSum, sum_update_of_mem hv, sum_update_of_mem hv]
    omega
  · rw [requestedSum, sum_update_of_notMem hv, sum_update_of_notMem hv]
    exact Nat.le_add_right _ _

/-- For the rate that a vport has already, the sum is that of the table. -/
theorem requestedSum_self (hv : vport < t.numVports) :
    t.requestedSum vport (t.reserved vport) = t.configuredSum := by
  have hmem := mem_range.2 hv
  have hself :
      t.configuredSum = ∑ i ∈ range t.numVports, update t.reserved vport (t.reserved vport) i := by
    rw [update_eq_self]
    rfl
  rw [hself, requestedSum, sum_update_of_mem hmem, sum_update_of_mem hmem]
  omega

/-- What the accounting adds to the sum is the rate that is reserved for the vport. -/
theorem account_fst (acc : ℕ × ℕ) (i : ℕ) (h : acc.1 < 2 ^ 32) :
    (t.account vport acc i).1 = (acc.1 + update t.reserved vport 0 i) % 2 ^ 32 := by
  have hsame := (mod_eq_of_lt h).symm
  by_cases hi : i = vport
  · subst hi
    simpa [account] using hsame
  · by_cases hc : (t.wfqData i).configured
    · simp [account, reserved, hi, hc]
    · by_cases hd : i < t.numDefaultVports
      · simpa [account, reserved, hi, hc, hd] using hsame
      · simpa [account, reserved, hi, hc, hd] using hsame

/-- The accounting has the exact sum modulo `2 ^ 32`. -/
theorem account_sum (n : ℕ) :
    ((List.range n).foldl (t.account vport) (0, 0)).1 =
      (∑ i ∈ range n, update t.reserved vport 0 i) % 2 ^ 32 := by
  induction n with
  | zero => rfl
  | succ n ih =>
    have hlt := ih ▸ mod_lt _ (by decide)
    rw [List.range_succ, List.foldl_concat, account_fst _ _ hlt, sum_range_succ, ih, mod_add_mod]

variable (vport) in
/-- The count only grows. -/
theorem account_snd (acc : ℕ × ℕ) (i : ℕ) : acc.2 ≤ (t.account vport acc i).2 := by
  rw [account]
  split_ifs
  · exact le_rfl
  · exact le_succ _
  · exact le_rfl

/-- Every other vport that gets a default rate is counted. -/
theorem account_count {n i : ℕ} (hi : i < n) (hne : i ≠ vport) (hd : i < t.numDefaultVports)
    (hc : (t.wfqData i).configured = false) :
    ((List.range n).foldl (t.account vport) (0, 0)).2 ≠ 0 := by
  induction n with
  | zero => omega
  | succ n ih =>
    rw [List.range_succ, List.foldl_concat]
    rcases Nat.lt_succ_iff_lt_or_eq.1 hi with hlt | rfl
    · have hle := t.account_snd vport ((List.range n).foldl (t.account vport) (0, 0)) n
      omega
    · simp [account, hne, hd, hc]

theorem assign_reserved (reqRate left : ℕ) :
    (t.assign vport reqRate left).reserved = update t.reserved vport reqRate := by
  funext i
  by_cases hi : i = vport
  · subst hi
    simp [assign, reserved]
  · by_cases hc : (t.wfqData i).configured
    · simp [assign, reserved, hi, hc]
    · by_cases hn : i < t.numVports
      · simp [assign, reserved, hi, hc, hn]
      · simp [assign, reserved, hi, hc, hn]

variable (vport) in
/-- A call is refused and changes nothing, or it passes the three validations. -/
theorem qedInitWfqParam_cases (rate : ℕ) {minPfRate : ℕ} (hpos : minPfRate ≠ 0) :
    t.qedInitWfqParam vport rate minPfRate = (false, t) ∨
      ∃ left, t.qedInitWfqParam vport rate minPfRate = (true, t.assign vport rate left) ∧
        (rate ≠ 0 → minPfRate ≤ 100 * rate) ∧
        t.requestedSum vport rate % 2 ^ 32 ≤ minPfRate ∧
        (((List.range t.numVports).foldl (t.account vport) (0, 0)).2 ≠ 0 →
          minPfRate ≤ 100 * left) := by
  rw [qedInitWfqParam]
  split_ifs with hrate htotal hleft
  · exact .inl rfl
  · exact .inl rfl
  · exact .inl rfl
  · refine .inr ⟨_, rfl, ?_, ?_, ?_⟩
    · intro hr
      exact le_of_weight_ne_zero fun hw => hrate ⟨hpos, hr, hw⟩
    · rw [account_sum, mod_add_mod] at htotal
      exact Nat.le_of_not_lt htotal
    · intro hcount
      exact le_of_weight_ne_zero fun hw => hleft ⟨hcount, hpos, hw⟩

end WfqTable

/-! ## Calls and runs -/

structure WfqCall where
  table : WfqTable
  vport : ℕ
  rate : ℕ
  minPfRate : ℕ

namespace WfqCall

variable (c : WfqCall)

def result : Bool × WfqTable := c.table.qedInitWfqParam c.vport c.rate c.minPfRate

/-- The three validations say what they are meant to, and a refused call changes nothing. -/
structure Admitted : Prop where
  sum : c.result.1 → c.result.2.configuredSum ≤ c.minPfRate
  others : c.result.1 → ∀ i < c.table.numVports, i < c.table.numDefaultVports →
    (c.result.2.wfqData i).configured = false →
    c.minPfRate ≤ 100 * (c.result.2.wfqData i).minSpeed
  rate : c.result.1 → c.rate ≠ 0 → c.minPfRate ≤ 100 * c.rate
  refused : c.result.1 = false → c.result.2 = c.table

variable {c}

/-- **A call is sound** if the exact sum of the rates fits in 32 bits. -/
theorem admitted (hpos : c.minPfRate ≠ 0)
    (hsum : c.table.requestedSum c.vport c.rate < 2 ^ 32) : c.Admitted := by
  rcases c.table.qedInitWfqParam_cases c.vport c.rate hpos with
    hres | ⟨left, hres, hrate, htotal, hleft⟩
  · change c.result = _ at hres
    constructor <;> simp [hres]
  · change c.result = _ at hres
    refine ⟨fun _ => ?_, fun _ i hi hd hc => ?_, fun _ => hrate, by simp [hres]⟩
    · rw [mod_eq_of_lt hsum] at htotal
      rw [hres, WfqTable.configuredSum, WfqTable.assign_reserved]
      exact (WfqTable.sum_update_le _).trans htotal
    · have hne : i ≠ c.vport := by
        rintro rfl
        simp [hres, WfqTable.assign] at hc
      have hfree : (c.table.wfqData i).configured = false := by
        simpa [hres, WfqTable.assign, hne, hi, apply_ite] using hc
      have hspeed : (c.result.2.wfqData i).minSpeed = left := by
        simp [hres, WfqTable.assign, hne, hi, hfree, hd]
      rw [hspeed]
      exact hleft (WfqTable.account_count hi hne hd hfree)

end WfqCall

/-- The loop of `__qed_configure_vp_wfq_on_link_change` over the given vports: the table afterwards,
and the calls that were made. -/
def WfqTable.onLinkChange (minPfRate : ℕ) : List ℕ → WfqTable → WfqTable × List WfqCall
  | [], t => (t, [])
  | i :: l, t =>
    if (t.wfqData i).configured then
      let c : WfqCall := ⟨t, i, (t.wfqData i).minSpeed, minPfRate⟩
      if c.result.1 then
        let r := onLinkChange minPfRate l c.result.2
        (r.1, c :: r.2)
      else (c.result.2, [c])
    else onLinkChange minPfRate l t

inductive WfqStep
  | configureVportWfq (vport rate minPfRate : ℕ)
  | onLinkChange (minPfRate : ℕ)

/-- The table, and the calls that were made so far. -/
structure WfqSys where
  table : WfqTable
  calls : List WfqCall

namespace WfqSys

/-- `__qed_configure_vport_wfq`, or `qed_configure_vp_wfq_on_link_change`. -/
def step (s : WfqSys) : WfqStep → WfqSys
  | .configureVportWfq vport rate minPfRate =>
    if minPfRate = 0 then
      { s with table.wfqData := update s.table.wfqData vport ⟨rate, true⟩ }
    else
      let c : WfqCall := ⟨s.table, vport, rate, minPfRate⟩
      ⟨c.result.2, s.calls ++ [c]⟩
  | .onLinkChange minPfRate =>
    if minPfRate = 0 then s
    else
      let r := s.table.onLinkChange minPfRate (List.range s.table.numVports)
      ⟨r.1, s.calls ++ r.2⟩

/-- The rates that the step adds up have a sum that fits in 32 bits. -/
def Fits (s : WfqSys) : WfqStep → Prop
  | .configureVportWfq vport rate minPfRate =>
    minPfRate ≠ 0 → s.table.requestedSum vport rate < 2 ^ 32
  | .onLinkChange minPfRate => minPfRate ≠ 0 → s.table.configuredSum < 2 ^ 32

end WfqSys

/-- The loop keeps the configured rates, so all its calls have the sum of the table. -/
theorem WfqTable.onLinkChange_admitted {minPfRate : ℕ} (hpos : minPfRate ≠ 0) {l : List ℕ}
    {t : WfqTable} (hl : ∀ i ∈ l, i < t.numVports) (hsum : t.configuredSum < 2 ^ 32) :
    ∀ c ∈ (t.onLinkChange minPfRate l).2, c.Admitted := by
  induction l generalizing t with
  | nil => simp [onLinkChange]
  | cons i l ih =>
    obtain ⟨hi, hl⟩ := List.forall_mem_cons.1 hl
    by_cases hc : (t.wfqData i).configured
    · have hrate : (t.wfqData i).minSpeed = t.reserved i := by rw [reserved, if_pos hc]
      have hfit : t.requestedSum i (t.wfqData i).minSpeed < 2 ^ 32 := by
        rwa [hrate, requestedSum_self hi]
      have hcall : WfqCall.Admitted ⟨t, i, (t.wfqData i).minSpeed, minPfRate⟩ :=
        WfqCall.admitted hpos hfit
      rcases t.qedInitWfqParam_cases i (t.wfqData i).minSpeed hpos with
        hres | ⟨left, hres, -⟩
      · simpa [onLinkChange, hc, WfqCall.result, hres] using hcall
      · have hsame : (t.assign i (t.wfqData i).minSpeed left).configuredSum = t.configuredSum := by
          rw [configuredSum, assign_reserved, hrate, update_eq_self]
          rfl
        have hrest := ih (t := t.assign i (t.wfqData i).minSpeed left) hl (hsame ▸ hsum)
        simpa [onLinkChange, hc, WfqCall.result, hres] using ⟨hcall, hrest⟩
    · simpa [onLinkChange, hc] using ih hl hsum

/-- **In a run whose steps fit in 32 bits, every call is sound.** -/
theorem wfq_calls_admitted {t : WfqTable} {l : List WfqStep}
    (h : Run.Meets WfqSys.Fits WfqSys.step ⟨t, []⟩ l) :
    ∀ c ∈ (l.foldl WfqSys.step ⟨t, []⟩).calls, c.Admitted := by
  refine h.invariant (P := fun s => ∀ c ∈ s.calls, c.Admitted) ?_ (by simp)
  intro s a hs ha
  cases a with
  | configureVportWfq vport rate minPfRate =>
    by_cases hpos : minPfRate = 0
    · simpa [WfqSys.step, hpos] using hs
    · have hc : WfqCall.Admitted ⟨s.table, vport, rate, minPfRate⟩ :=
        WfqCall.admitted hpos (ha hpos)
      simpa [WfqSys.step, hpos, or_imp, forall_and] using ⟨hs, hc⟩
  | onLinkChange minPfRate =>
    by_cases hpos : minPfRate = 0
    · simpa [WfqSys.step, hpos] using hs
    · have hr := s.table.onLinkChange_admitted hpos (fun i => List.mem_range.1) (ha hpos)
      simpa [WfqSys.step, hpos, or_imp, forall_and] using ⟨hs, hr⟩

/-- A new table of two vports, without PQ sets. -/
def WfqTable.two : WfqTable := ⟨2, false, 0, 0, 1, fun _ => ⟨0, false⟩⟩

/-- Half of the rate of the PF for each of the vports. -/
theorem wfq_calls_admitted_halves :
    let s := [WfqStep.configureVportWfq 0 5000 10000, .configureVportWfq 1 5000 10000,
      .onLinkChange 10000].foldl WfqSys.step ⟨WfqTable.two, []⟩
    s.calls.length = 4 ∧ ∀ c ∈ s.calls, c.Admitted := by
  refine ⟨by decide +kernel,
    wfq_calls_admitted ⟨fun _ => ?_, fun _ => ?_, fun _ => ?_, trivial⟩⟩ <;>
    decide +kernel

/-- The rates 5000 and `2 ^ 32 - 5000` have the 32-bit sum 0, and both are admitted. -/
theorem not_wfq_calls_admitted :
    ¬ ∀ c ∈ ([WfqStep.configureVportWfq 0 5000 10000,
      .configureVportWfq 1 (2 ^ 32 - 5000) 10000].foldl WfqSys.step ⟨WfqTable.two, []⟩).calls,
      c.Admitted := by
  intro h
  have hcall := (h ⟨(WfqTable.two.qedInitWfqParam 0 5000 10000).2, 1, 2 ^ 32 - 5000, 10000⟩
    (.tail _ (.head _))).sum
  exact absurd (hcall (by decide +kernel)) (by decide +kernel)

end FastLinQ.Qed
