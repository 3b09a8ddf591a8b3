import FastLinQ.Foundations.Run
import FastLinQ.Qed.Spq.Basic

/-!
# The queue and its callers

`SpqSys` adds to the queue what its callers hold between two sections under the lock: entries
that were got and not yet posted, posters that wait in `qed_spq_block`, posters that gave up
and are on their way to `spq_post_fail2`, and completions whose callback is still to be called or
whose entry is still to be returned. Any number of callers may be at any of these points.

`SpqSys.step` takes one of them one section further. A step says nothing about time: a poster may
give up as soon as it waits, a completion may come for any echo. `SpqStep.Enabled` is the program
counter, a step is only taken by a caller that is there.
-/

namespace FastLinQ.Qed

structure Fired where
  ent : ℕ
  /-- Whether the entry was in EBLOCK mode when it was found. -/
  eblock : Bool
  fwReturnCode : ℕ
  deriving DecidableEq, Repr

structure SpqSys where
  spq : Spq
  /-- Got from `qed_spq_get_entry`, not filled. -/
  got : List ℕ
  /-- Filled, not posted. -/
  held : List ℕ
  /-- The entries that posters in `qed_spq_block` called with. -/
  waiting : List ℕ
  /-- The posted entries of posters between `qed_spq_block` and `spq_post_fail2`. -/
  expired : List ℕ
  /-- EBLOCK entries that were completed, not yet returned by their poster. -/
  finished : List ℕ
  /-- Completions before their callback. -/
  fired : List Fired
  /-- Completions after their callback. -/
  returning : List Fired
  /-- Whether a null pointer was dereferenced. -/
  oops : Bool

/-- The queue after `qed_spq_setup`, without callers. -/
def SpqSys.start (c : Chain) (ramrodPhys : ℕ → ℕ) : SpqSys :=
  ⟨qedSpqSetup c ramrodPhys, [], [], [], [], [], [], [], false⟩

inductive SpqStep
  | getEntry (kzalloc : Bool)
  | fill (x : ℕ) (d : SpInitData)
  | destroyRequest (x : ℕ)
  | post (x : ℕ)
  | postInRecovery (x : ℕ)
  | blockDone (p : ℕ)
  | blockInRecovery (p : ℕ)
  | blockTimeout (p : ℕ)
  | postFail2 (x : ℕ)
  | completion (echo fwReturnCode : ℕ)
  | callback (f : Fired)
  | completionEnd (f : Fired)
  | pendPost
  | dropNextCompletion
  deriving DecidableEq, Repr

/-- The entry that was posted for the caller of `qed_spq_post` with `p`. -/
def Spq.postedEnt (s : Spq) (p : ℕ) : Option ℕ :=
  if (s.ents p).queue = .unlimitedPending then (s.ents p).postEnt else some p

/-- After `qed_spq_block` a heap entry is freed. -/
def spqLeaveBlock (s : Spq) (p : ℕ) : Spq :=
  if (s.ents p).queue = .unlimitedPending then
    { s.kfree p with hist := { (s.kfree p).hist with moved := s.hist.moved.erase p } }
  else s

/-- `qed_spq_block` returned zero: the posted entry goes back to the pool. -/
def SpqSys.leaveDone (s : SpqSys) (p : ℕ) : SpqSys :=
  let q := spqLeaveBlock s.spq p
  match s.spq.postedEnt p with
  | none => { s with spq := q, waiting := s.waiting.erase p, oops := true }
  | some x =>
    { s with
      spq := qedSpqReturnEntry q x
      waiting := s.waiting.erase p
      finished := s.finished.erase x }

/-- `qed_spq_block` returned an error: the poster goes on to `spq_post_fail2`. -/
def SpqSys.leaveTimeout (s : SpqSys) (p : ℕ) : SpqSys :=
  let q := spqLeaveBlock s.spq p
  match s.spq.postedEnt p with
  | none => { s with spq := q, waiting := s.waiting.erase p, oops := true }
  | some x =>
    { s with spq := q, waiting := s.waiting.erase p, expired := s.expired ++ [x] }

def SpqSys.step (s : SpqSys) : SpqStep → SpqSys
  | .getEntry kzalloc =>
    match qedSpqGetEntry s.spq kzalloc with
    | (none, q) => { s with spq := q }
    | (some x, q) => { s with spq := q, got := s.got ++ [x] }
  | .fill x d =>
    let q := s.spq.setEnt x (spInitEntry x (s.spq.ents x) d)
    if d.ok ∨ d.compMode = .unknown then
      { s with spq := q, got := s.got.erase x, held := s.held ++ [x] }
    -- `qed_sp_init_request` can only destroy the request now
    else { s with spq := q }
  | .destroyRequest x =>
    { s with
      spq := qedSpDestroyRequest s.spq x
      got := s.got.erase x
      held := s.held.erase x }
  | .post x =>
    let r := qedSpqPost s.spq x
    { s with
      spq := r.2
      held := s.held.erase x
      waiting := if r.1 then s.waiting ++ [x] else s.waiting }
  | .postInRecovery x => { s with held := s.held.erase x }
  | .blockDone p | .blockInRecovery p => s.leaveDone p
  | .blockTimeout p => s.leaveTimeout p
  | .postFail2 x =>
    { s with
      spq := qedSpqPostFail2 s.spq x
      expired := s.expired.erase x
      finished := s.finished.erase x }
  | .completion echo fwReturnCode =>
    match qedSpqCompletion s.spq echo with
    | (none, q) => { s with spq := q }
    | (some x, q) =>
      let eblock := decide ((s.spq.ents x).compMode = .eblock)
      { s with
        spq := q
        finished := if eblock then s.finished ++ [x] else s.finished
        fired := s.fired ++ [⟨x, eblock, fwReturnCode⟩] }
  | .callback f =>
    { s with
      spq := spqCallback s.spq f.ent f.fwReturnCode
      fired := s.fired.erase f
      returning := s.returning ++ [f] }
  | .completionEnd f =>
    { s with
      spq :=
        if (s.spq.ents f.ent).compMode = .eblock then s.spq else qedSpqReturnEntry s.spq f.ent
      returning := s.returning.erase f }
  | .pendPost => { s with spq := (qedSpqPendPost s.spq).2 }
  | .dropNextCompletion => { s with spq := { s.spq with dropNextCompletion := true } }

/-- The caller of a step is where the step starts. -/
def SpqStep.Enabled (s : SpqSys) : SpqStep → Prop
  | .fill x _ => x ∈ s.got
  | .destroyRequest x => x ∈ s.got ∨ x ∈ s.held
  | .post x | .postInRecovery x => x ∈ s.held
  | .blockDone p => p ∈ s.waiting ∧ (s.spq.ents p).compDone.done = true
  | .blockInRecovery p | .blockTimeout p => p ∈ s.waiting
  | .postFail2 x => x ∈ s.expired
  | .callback f => f ∈ s.fired
  | .completionEnd f => f ∈ s.returning
  | .getEntry _ | .completion .. | .pendPost | .dropNextCompletion => True

instance (s : SpqSys) (a : SpqStep) : Decidable (a.Enabled s) := by
  unfold SpqStep.Enabled
  cases a <;> infer_instance

end FastLinQ.Qed
