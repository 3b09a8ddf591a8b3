import Mathlib

/-!
# Reconfiguring the queue manager

`__qed_qm_reconf` takes a lock of the management firmware (MFW), computes the queues anew, stops the
QM, writes the new configuration and starts it. Its return code is also that of the unlock command,
which is sent even if the lock was busy. So a failure is lost when the lock was granted and the
unlock command succeeds, and a lock that another function holds is given back.
-/

namespace FastLinQ.Qed

open Nat

inductive Errno
  | eagain
  | ebusy
  | einval
  | eopnotsupp
  | other
  deriving DecidableEq, Repr

/-- What comes back for a lock command: an error of `qed_mcp_resource_cmd`, or an opcode. -/
inductive LockAnswer
  | error (e : Errno)
  | granted
  | busy
  | unexpected
  deriving DecidableEq, Repr

/-- `__qed_mcp_resc_lock`: the return code, if there is one, and `b_granted`. -/
def LockAnswer.rescLock : LockAnswer → Option Errno × Bool
  | .error e => (some e, false)
  | .granted => (none, true)
  | .busy => (none, false)
  | .unexpected => (some .einval, false)

/-- After this answer the loop of `qed_mcp_resc_lock` goes on. -/
def LockAnswer.Again (a : LockAnswer) : Prop := a = .error .eagain ∨ a = .busy

/-- `qed_mcp_resc_lock` from an attempt on, with the number of retries that are left; `none` is
success. -/
def qedMcpRescLock (answers : ℕ → LockAnswer) : ℕ → ℕ → Option Errno
  | 0, i =>
    match (answers i).rescLock with
    | (some .eagain, _) | (none, false) => some .ebusy
    | (some e, _) => some e
    | (none, true) => none
  | retries + 1, i =>
    match (answers i).rescLock with
    | (some .eagain, _) | (none, false) => qedMcpRescLock answers retries (i + 1)
    | (some e, _) => some e
    | (none, true) => none

/-- The MFW grants the lock in one of the attempts that are made. -/
def Granted (answers : ℕ → LockAnswer) (retries i : ℕ) : Prop :=
  ∃ k ≤ retries, (∀ j < k, (answers (i + j)).Again) ∧ answers (i + k) = .granted

/-- The outcomes of the steps of `__qed_qm_reconf`. -/
structure ReconfEnv where
  answers : ℕ → LockAnswer
  retryNum : ℕ
  /-- `qed_init_qm_features` -/
  features : Option Errno
  pqOverflow : Bool
  /-- the command to stop the QM, and the one to start it -/
  stop : Bool
  initRun : Option Errno
  start : Bool
  /-- `qed_mcp_resc_unlock` -/
  unlock : Option Errno

namespace ReconfEnv

variable (env : ReconfEnv)

/-- `qed_mcp_resc_lock` for the QM. -/
def lock : Option Errno := qedMcpRescLock env.answers env.retryNum 0

/-- The return code at the label `unlock`. -/
def steps : Option Errno :=
  if env.features ≠ none then env.features
  else if env.pqOverflow then some .einval
  else if !env.stop then some .einval
  else if !env.start then some .einval
  else env.initRun

/-- `__qed_qm_reconf`: the return code, and whether the unlock command is sent. -/
def qedQmReconf : Option Errno × Bool :=
  if env.lock ≠ none ∧ env.lock ≠ some .eopnotsupp ∧ env.lock ≠ some .ebusy then
    (some .einval, false)
  else if env.lock = some .eopnotsupp then (env.steps, false)
  else (env.unlock, true)

/-- The QM was stopped, set up and started without an error. -/
def Restarted : Prop :=
  env.features = none ∧ env.pqOverflow = false ∧ env.stop = true ∧ env.initRun = none ∧
    env.start = true

/-- Success is reported only for a restart, and the lock is given back just if it was granted. -/
def Honest : Prop :=
  (env.qedQmReconf.1 = none → env.Restarted) ∧
    (env.qedQmReconf.2 = true ↔ Granted env.answers env.retryNum 0)

end ReconfEnv

variable {answers : ℕ → LockAnswer} {retries i : ℕ}

theorem granted_zero : Granted answers 0 i ↔ answers i = .granted := by
  constructor
  · rintro ⟨k, hk, -, hgrant⟩
    rwa [le_zero.1 hk] at hgrant
  · exact fun h => ⟨0, Nat.le_refl 0, nofun, h⟩

theorem granted_succ : Granted answers (retries + 1) i ↔
    answers i = .granted ∨ (answers i).Again ∧ Granted answers retries (i + 1) := by
  constructor
  · rintro ⟨k, hk, hagain, hgrant⟩
    cases k with
    | zero => exact .inl hgrant
    | succ k =>
      refine .inr ⟨hagain 0 k.succ_pos, k, le_of_succ_le_succ hk, fun j hj => ?_, ?_⟩
      · rw [Nat.add_right_comm]
        exact hagain (j + 1) (succ_lt_succ hj)
      · rw [Nat.add_right_comm]
        exact hgrant
  · rintro (h | ⟨hagain, k, hk, hmore, hgrant⟩)
    · exact ⟨0, Nat.zero_le _, nofun, h⟩
    · refine ⟨k + 1, succ_le_succ hk, fun j hj => ?_, ?_⟩
      · cases j with
        | zero => exact hagain
        | succ j =>
          rw [← Nat.add_assoc, Nat.add_right_comm]
          exact hmore j (lt_of_succ_lt_succ hj)
      · rw [← Nat.add_assoc, Nat.add_right_comm]
        exact hgrant

/-- **The lock is taken** just if the MFW grants it. -/
theorem rescLock_eq_none_iff :
    qedMcpRescLock answers retries i = none ↔ Granted answers retries i := by
  induction retries generalizing i with
  | zero =>
    rw [granted_zero, qedMcpRescLock]
    cases answers i with
    | error e => cases e <;> simp [LockAnswer.rescLock]
    | _ => simp [LockAnswer.rescLock]
  | succ retries ih =>
    rw [granted_succ, qedMcpRescLock, ← ih]
    cases answers i with
    | error e => cases e <;> simp [LockAnswer.rescLock, LockAnswer.Again]
    | _ => simp [LockAnswer.rescLock, LockAnswer.Again]

theorem ReconfEnv.steps_eq_none_iff (env : ReconfEnv) : env.steps = none ↔ env.Restarted := by
  unfold steps Restarted
  cases env.features <;> cases env.pqOverflow <;> cases env.stop <;> cases env.start <;> simp

/-- **Reconfiguration reports its failures and balances the lock**, just if the lock is not busy,
and if after a lock that was granted the QM is restarted or the unlock command fails. -/
theorem qm_reconf_honest_iff (env : ReconfEnv) :
    env.Honest ↔ env.lock ≠ some .ebusy ∧
      (Granted env.answers env.retryNum 0 → env.unlock = none → env.Restarted) := by
  have hlock : env.lock = none ↔ _ := rescLock_eq_none_iff
  unfold ReconfEnv.Honest ReconfEnv.qedQmReconf
  rw [← hlock]
  cases hrc : env.lock with
  | none => simp
  | some e =>
    cases e with
    | ebusy => simp
    | eopnotsupp => simpa using env.steps_eq_none_iff.1
    | _ => simp

/-- The QM is not stopped, but the unlock command succeeds, and so does the call. While another
function holds the lock, it is given back. -/
theorem not_qm_reconf_honest :
    ¬ (⟨fun _ => .granted, 10, none, false, false, none, true, none⟩ : ReconfEnv).Honest ∧
      ¬ (⟨fun _ => .busy, 10, none, false, true, none, true, none⟩ : ReconfEnv).Honest := by
  constructor
  · intro h
    exact absurd (h.1 (by decide)).2.2.1 (by decide)
  · intro h
    exact absurd (rescLock_eq_none_iff.2 (h.2.1 (by decide))) (by decide)

end FastLinQ.Qed
