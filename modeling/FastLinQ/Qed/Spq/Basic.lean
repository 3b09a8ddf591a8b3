import FastLinQ.Qed.Chain.Alloc

/-!
# The slow-path queue

`struct qed_spq`: ramrods go from the `free_pool` through the caller's hands to `pending`, from
there to a ring of `SPQ_RING_SIZE` elements that the firmware reads, and wait on
`completion_pending` until the firmware completes them, in any order. If the pool is empty the
entry comes from the heap and waits on `unlimited_pending`; it is copied to a pool entry once one
is free.

An entry is named by a number, as a pointer would name it: entry `i` of `p_virt` is `i`, and
`kzalloc` hands out the next number that was never used. A list of entries is the list of their
names, `list_del` erases a name. Every function here is one that runs under `p_spq->lock`; what
callers do between two of them is in `FastLinQ.Qed.Spq.System`.

`SpqHist` only remembers: how many elements were produced and returned, which of them an entry
was posted as, and what became of it. Nothing in the queue depends on it. Statistics, debug
prints and the doorbell are left out; bytes are those of a little-endian host.
-/

namespace FastLinQ.Qed

open Function

def CORE_SPQE_PAGE_SIZE_BYTES : ℕ := 4096

/-- `sizeof(struct slow_path_element)`. -/
def sizeofSlowPathElement : ℕ := 16

def SPQ_RING_SIZE : ℕ := CORE_SPQE_PAGE_SIZE_BYTES / sizeofSlowPathElement

def SPQ_HIGH_PRI_RESERVE_DEFAULT : ℕ := 1

/-! ## Entries -/

/-- `enum spq_mode`, and the values outside it. -/
inductive SpqMode
  | block
  | cb
  | eblock
  | unknown
  deriving DecidableEq, Repr

inductive SpqPriority
  | normal
  | high
  deriving DecidableEq, Repr

/-- The list that `p_ent->queue` points to. -/
inductive SpqQueue
  | null
  | pending
  | unlimitedPending
  deriving DecidableEq, Repr

/-- `comp_cb.function`: nothing, `qed_spq_blocking_cb`, or a function of the client. -/
inductive CompFunction
  | null
  | blockingCb
  | client (n : ℕ)
  deriving DecidableEq, Repr

/-- `comp_cb.cookie`: the `comp_done` of an entry, or memory of the client. -/
inductive CompCookie
  | compDone (ent : ℕ)
  | client (n : ℕ)
  deriving DecidableEq, Repr

structure RamrodHeader where
  cid : ℕ
  cmdId : ℕ
  protocolId : ℕ
  echo : ℕ
  deriving DecidableEq, Repr

structure SlowPathElement where
  hdr : RamrodHeader
  dataPtr : ℕ
  deriving DecidableEq, Repr

structure SpqCompDone where
  done : Bool
  fwReturnCode : ℕ
  deriving DecidableEq, Repr

/-- `struct qed_spq_entry`, less its ramrod data. -/
structure SpqEntry where
  elem : SlowPathElement
  priority : SpqPriority
  queue : SpqQueue
  compMode : SpqMode
  function : CompFunction
  cookie : CompCookie
  compDone : SpqCompDone
  postEnt : Option ℕ
  deriving DecidableEq, Repr

def SpqEntry.zero : SpqEntry where
  elem := ⟨⟨0, 0, 0, 0⟩, 0⟩
  priority := .normal
  queue := .null
  compMode := .block
  function := .null
  cookie := .client 0
  compDone := ⟨false, 0⟩
  postEnt := none

/-! ## The queue -/

structure SpqHist where
  /-- How many elements were produced on the ring. -/
  produced : ℕ
  /-- How many elements were returned to the ring. -/
  returned : ℕ
  /-- The number of the element an entry was last posted as. -/
  seqOf : ℕ → ℕ
  /-- The elements whose completion was handled. -/
  completed : List ℕ
  /-- The elements whose poster gave up. -/
  timedOut : List ℕ
  /-- The heap entries of blocking posters that were copied to a pool entry. -/
  moved : List ℕ
  /-- The heap entries that were freed. -/
  freed : List ℕ

/-- `struct qed_spq`, with the memory of its entries and of its ring. -/
structure Spq where
  unlimitedPending : List ℕ
  pending : List ℕ
  completionPending : List ℕ
  freePool : List ℕ
  chain : Chain
  pCompBitmap : ℕ → Bool
  compBitmapIdx : ℕ
  dropNextCompletion : Bool
  ents : ℕ → SpqEntry
  nextEnt : ℕ
  ring : ℕ → SlowPathElement
  hist : SpqHist

def Spq.setEnt (s : Spq) (x : ℕ) (e : SpqEntry) : Spq := { s with ents := update s.ents x e }

section SetEnt

variable (s : Spq) (x : ℕ) (e : SpqEntry)

@[simp, grind =] theorem Spq.setEnt_unlimitedPending :
    (s.setEnt x e).unlimitedPending = s.unlimitedPending := rfl

@[simp, grind =] theorem Spq.setEnt_pending : (s.setEnt x e).pending = s.pending := rfl

@[simp, grind =] theorem Spq.setEnt_completionPending :
    (s.setEnt x e).completionPending = s.completionPending := rfl

@[simp, grind =] theorem Spq.setEnt_freePool : (s.setEnt x e).freePool = s.freePool := rfl

@[simp, grind =] theorem Spq.setEnt_hist : (s.setEnt x e).hist = s.hist := rfl

@[grind =] theorem Spq.setEnt_ents (z : ℕ) :
    (s.setEnt x e).ents z = if z = x then e else s.ents z := update_apply ..

@[simp] theorem Spq.setEnt_self : (s.setEnt x e).ents x = e := update_self ..

theorem Spq.setEnt_of_ne {z : ℕ} (hz : z ≠ x) : (s.setEnt x e).ents z = s.ents z :=
  update_of_ne hz ..

end SetEnt

def Spq.kfree (s : Spq) (x : ℕ) : Spq :=
  { s with hist := { s.hist with freed := s.hist.freed ++ [x] } }

/-- The parameters `qed_spq_alloc` gives to `qed_chain_alloc`. -/
def spqChainParams : ChainParams :=
  qedChainParamsInit .toProduce .single .u16 0 sizeofSlowPathElement

/-- `qed_spq_setup`, on a chain that `qed_spq_alloc` allocated; `ramrodPhys i` is the physical
address of the ramrod data of entry `i`. -/
def qedSpqSetup (c : Chain) (ramrodPhys : ℕ → ℕ) : Spq where
  unlimitedPending := []
  pending := []
  completionPending := []
  freePool := List.range c.capacity
  chain := qedChainReset c
  pCompBitmap _ := false
  compBitmapIdx := 0
  dropNextCompletion := false
  ents i := { SpqEntry.zero with elem.dataPtr := if i < c.capacity then ramrodPhys i else 0 }
  nextEnt := c.capacity
  ring _ := ⟨⟨0, 0, 0, 0⟩, 0⟩
  hist := ⟨0, 0, fun _ => 0, [], [], [], []⟩

/-! ## Getting and returning entries -/

/-- `qed_spq_get_entry`; `kzalloc` says whether the heap has room. -/
def qedSpqGetEntry (s : Spq) (kzalloc : Bool) : Option ℕ × Spq :=
  match s.freePool with
  | [] =>
    if kzalloc then
      (some s.nextEnt,
        { s.setEnt s.nextEnt { SpqEntry.zero with queue := .unlimitedPending } with
          nextEnt := s.nextEnt + 1 })
    else (none, s)
  | x :: l => (some x, { s.setEnt x { s.ents x with queue := .pending } with freePool := l })

def qedSpqReturnEntry (s : Spq) (x : ℕ) : Spq := { s with freePool := s.freePool ++ [x] }

def qedSpDestroyRequest (s : Spq) (x : ℕ) : Spq :=
  if (s.ents x).queue = .unlimitedPending then s.kfree x else qedSpqReturnEntry s x

/-- `struct qed_sp_init_data` and the other arguments of `qed_sp_init_request`. -/
structure SpInitData where
  cid : ℕ
  cmd : ℕ
  protocol : ℕ
  compMode : SpqMode
  /-- `p_comp_data`: a function and a cookie of the client. -/
  compData : Option (ℕ × ℕ)
  deriving DecidableEq, Repr

/-- What `qed_sp_init_request` writes to the entry it got. -/
def spInitEntry (x : ℕ) (e : SpqEntry) (d : SpInitData) : SpqEntry :=
  let e := { e with
    elem.hdr.cid := d.cid
    elem.hdr.cmdId := d.cmd
    elem.hdr.protocolId := d.protocol
    priority := .normal
    compMode := d.compMode
    compDone.done := false }
  match d.compMode, d.compData with
  | .eblock, _ => { e with cookie := .compDone x }
  | .block, some cb => { e with cookie := .client cb.2 }
  | .cb, none => { e with function := .null }
  | .cb, some cb => { e with function := .client cb.1, cookie := .client cb.2 }
  | .block, none | .unknown, _ => e

@[simp] theorem spInitEntry_queue (x : ℕ) (e : SpqEntry) (d : SpInitData) :
    (spInitEntry x e d).queue = e.queue := by
  unfold spInitEntry
  split <;> rfl

@[simp] theorem spInitEntry_postEnt (x : ℕ) (e : SpqEntry) (d : SpInitData) :
    (spInitEntry x e d).postEnt = e.postEnt := by
  unfold spInitEntry
  split <;> rfl

/-- Whether `qed_sp_init_request` keeps the entry. -/
def SpInitData.ok (d : SpInitData) : Bool :=
  match d.compMode, d.compData with
  | .block, none | .unknown, _ => false
  | _, _ => true

/-! ## Posting -/

def qedSpqFillEntry (s : Spq) (x : ℕ) : Option Spq :=
  match (s.ents x).compMode with
  | .eblock | .block => some (s.setEnt x { s.ents x with function := .blockingCb })
  | .cb => some s
  | .unknown => none

/-- The end of `qed_spq_add_entry`: the entry goes to `pending`. -/
def spqAddPending (s : Spq) (x : ℕ) : SpqPriority → Spq
  | .normal => { s with pending := s.pending ++ [x] }
  | .high => { s with pending := x :: s.pending }

/-- The copy of a heap entry `x` to the pool entry `y`, which keeps its ramrod memory. -/
def spqCopyEntry (s : Spq) (x y : ℕ) : Spq :=
  let e := { s.ents x with elem.dataPtr := (s.ents y).elem.dataPtr }
  let s := (s.setEnt x e).setEnt y e
  -- a blocking poster still needs its entry
  if e.compMode = .eblock then
    { s.setEnt x { s.ents x with postEnt := some y } with
      hist := { s.hist with moved := s.hist.moved ++ [x] } }
  else s.kfree x

def qedSpqAddEntry (s : Spq) (x : ℕ) (priority : SpqPriority) : Spq :=
  if (s.ents x).queue = .unlimitedPending then
    match s.freePool with
    | [] => { s with unlimitedPending := s.unlimitedPending ++ [x] }
    | y :: l => spqAddPending (spqCopyEntry { s with freePool := l } x y) y priority
  else spqAddPending s x priority

/-- `qed_spq_hw_post`; it fails if the chain hands out a null pointer. -/
def qedSpqHwPost (s : Spq) (x : ℕ) : Bool × Spq :=
  let e := { s.ents x with elem.hdr.echo := qedChainGetProdIdx s.chain }
  let r := qedChainProduce s.chain
  let s := { s.setEnt x e with
    chain := r.2
    hist := { s.hist with
      produced := s.hist.produced + 1
      seqOf := update s.hist.seqOf x s.hist.produced } }
  if r.1 = 0 then (false, s) else (true, { s with ring := update s.ring r.1 e.elem })

/-- The loop of `qed_spq_post_list` over the entries of `pending`. -/
def spqPostLoop (keepReserve : ℕ) : List ℕ → Spq → Bool × Spq
  | [], s => (true, s)
  | x :: l, s =>
    if qedChainGetElemLeft s.chain > keepReserve then
      let r := qedSpqHwPost
        { s with pending := l, completionPending := s.completionPending ++ [x] } x
      if r.1 then spqPostLoop keepReserve l r.2
      else
        (false, qedSpqReturnEntry
          { r.2 with completionPending := r.2.completionPending.erase x } x)
    else (true, s)

/-- `qed_spq_post_list` on `pending`. -/
def qedSpqPostList (s : Spq) (keepReserve : ℕ) : Bool × Spq := spqPostLoop keepReserve s.pending s

/-- The loop of `qed_spq_pend_post` over the entries of `unlimited_pending`. -/
def spqPendLoop : List ℕ → Spq → Spq
  | [], s => s
  | x :: l, s =>
    match s.freePool with
    | [] => s
    | _ :: _ =>
      spqPendLoop l (qedSpqAddEntry { s with unlimitedPending := l } x (s.ents x).priority)

def qedSpqPendPost (s : Spq) : Bool × Spq :=
  qedSpqPostList (spqPendLoop s.unlimitedPending s) SPQ_HIGH_PRI_RESERVE_DEFAULT

/-- The section of `qed_spq_post` under the lock; the result says whether the caller goes on to
wait for a completion. -/
def qedSpqPost (s : Spq) (x : ℕ) : Bool × Spq :=
  match qedSpqFillEntry s x with
  | none => (false, qedSpqReturnEntry s x)
  | some s =>
    let eblock := decide ((s.ents x).compMode = .eblock)
    let r := qedSpqPendPost (qedSpqAddEntry s x (s.ents x).priority)
    (eblock && r.1, r.2)

/-! ## Completing -/

/-- One turn of the loop of `qed_spq_comp_bmap_update`. -/
def spqBmapNext (s : Spq) : Spq :=
  { s with
    pCompBitmap := update s.pCompBitmap (s.compBitmapIdx % SPQ_RING_SIZE) false
    compBitmapIdx := (s.compBitmapIdx + 1) % 2 ^ 8
    chain := qedChainReturnProduced s.chain
    hist := { s.hist with returned := s.hist.returned + 1 } }

/-- The loop of `qed_spq_comp_bmap_update`. -/
def spqBmapLoop : ℕ → Spq → Spq
  | 0, s => s
  | n + 1, s =>
    if s.pCompBitmap (s.compBitmapIdx % SPQ_RING_SIZE) then spqBmapLoop n (spqBmapNext s) else s

/-- `qed_spq_comp_bmap_update`. A turn of the loop clears a bit, so there are not more turns than
bits. -/
def qedSpqCompBmapUpdate (s : Spq) (echo : ℕ) : Spq :=
  spqBmapLoop SPQ_RING_SIZE
    { s with pCompBitmap := update s.pCompBitmap (echo % SPQ_RING_SIZE) true }

/-- The section of `qed_spq_completion` under the lock, with the entry it found. -/
def qedSpqCompletion (s : Spq) (echo : ℕ) : Option ℕ × Spq :=
  match s.completionPending.find? fun x => (s.ents x).elem.hdr.echo == echo with
  | none => (none, s)
  | some x =>
    if s.dropNextCompletion ∧ (s.ents x).compMode = .eblock then
      (none, { s with dropNextCompletion := false })
    else
      let s := { s with
        completionPending := s.completionPending.erase x
        hist := { s.hist with completed := s.hist.completed ++ [s.hist.seqOf x] } }
      (some x, qedSpqCompBmapUpdate s echo)

/-- The call of `comp_cb.function`: only `qed_spq_blocking_cb` writes to an entry. -/
def spqCallback (s : Spq) (x fwReturnCode : ℕ) : Spq :=
  match (s.ents x).function, (s.ents x).cookie with
  | .blockingCb, .compDone p => s.setEnt p { s.ents p with compDone := ⟨true, fwReturnCode⟩ }
  | _, _ => s

/-- The section of `qed_spq_post` at `spq_post_fail2`. The entry is deleted from the list it is
linked on; an entry that is on no list stays off. -/
def qedSpqPostFail2 (s : Spq) (x : ℕ) : Spq :=
  let s := { s with
    unlimitedPending := s.unlimitedPending.erase x
    pending := s.pending.erase x
    completionPending := s.completionPending.erase x
    hist := { s.hist with timedOut :=
      if x ∈ s.completionPending then s.hist.timedOut ++ [s.hist.seqOf x]
      else s.hist.timedOut } }
  qedSpqReturnEntry (qedSpqCompBmapUpdate s (s.ents x).elem.hdr.echo) x

end FastLinQ.Qed
