import FastLinQ.Foundations.Nodes
import FastLinQ.Foundations.Word

/-!
# Out-of-order isles

Segments of a TCP connection that come out of order are kept in isles: an isle is a run of adjacent
buffers, and the isles of a connection, its archipelago, are in the order of the stream. The
firmware says which isle a segment belongs to; an isle that has become the first one is moved to the
ready list.

All three levels are intrusive lists. An isle is a node of a fixed table, with a list of buffers of
its own; it is on the list of an archipelago or on the free list.
-/

namespace FastLinQ.Qed

open Nodes

variable {β : Type*}

def QED_MAX_NUM_ISLES : ℕ := 256

/-- The messages that are printed, with the numbers in them. -/
inductive OooNotice
  | connectionNotFound (cid : ℕ)
  | isleNotFound (isle cid : ℕ)
  | isleEmpty (isle cid : ℕ)
  | freeIsleNotEmpty
  | noMoreFreeIsles
  | rightIsleNotFound (isle cid : ℕ)
  | leftIsleNotFound (isle cid : ℕ)
  deriving DecidableEq, Repr

/-- `struct qed_ooo_info`. An isle is its index in `p_isles_mem`, an archipelago its index in
`p_archipelagos_mem`. -/
structure OooInfo (β : Type*) where
  freeBuffers : List β
  readyBuffers : List β
  freeIsles : List ℕ
  /-- `isles_list` of an archipelago -/
  isles : ℕ → List ℕ
  /-- `buffers_list` of an isle -/
  buffers : ℕ → List β
  curIslesNumber : ℕ
  maxIslesNumber : ℕ
  genIslesNumber : ℕ
  maxNumArchipelagos : ℕ
  cidBase : ℕ
  notices : List OooNotice

namespace OooInfo

/-- `qed_ooo_alloc`, with some buffers put on the free list. -/
def alloc (maxNumArchipelagos cidBase : ℕ) (freeBuffers : List β) : OooInfo β where
  freeBuffers := freeBuffers
  readyBuffers := []
  freeIsles := List.range ((QED_MAX_NUM_ISLES + maxNumArchipelagos) % 2 ^ 16)
  isles := fun _ => []
  buffers := fun _ => []
  curIslesNumber := 0
  maxIslesNumber := 0
  genIslesNumber := 0
  maxNumArchipelagos := maxNumArchipelagos
  cidBase := cidBase
  notices := []

def notice (s : OooInfo β) (n : List OooNotice) : OooInfo β := { s with notices := s.notices ++ n }

/-- `(cid & 0xffff) - cid_base`. -/
def idx (s : OooInfo β) (cid : ℕ) : ℕ := Word.sub 32 (cid % 2 ^ 16) s.cidBase

def seekArchipelago (s : OooInfo β) (cid : ℕ) : Option ℕ :=
  if s.maxNumArchipelagos ≤ s.idx cid then none
  else if (s.isles (s.idx cid)).isEmpty then none
  else some (s.idx cid)

/-- The loop of `qed_ooo_seek_isle`, with the number of the first isle of the list. -/
def seekIsleFrom (isle : ℕ) : List ℕ → ℕ → Option ℕ
  | [], _ => none
  | i :: is, theNumOfIsle =>
    if theNumOfIsle = isle then some i else seekIsleFrom isle is ((theNumOfIsle + 1) % 2 ^ 8)

def seekIsle (s : OooInfo β) (cid isle : ℕ) : Option ℕ :=
  match s.seekArchipelago cid with
  | none => none
  | some a => seekIsleFrom isle (s.isles a) 1

/-- What `qed_ooo_seek_isle` prints. -/
def seekNotices (s : OooInfo β) (cid : ℕ) : List OooNotice :=
  if (s.seekArchipelago cid).isNone then [.connectionNotFound cid] else []

def setIsles (s : OooInfo β) (a : ℕ) (is : List ℕ) : OooInfo β :=
  { s with isles := Function.update s.isles a is }

def setBuffers (s : OooInfo β) (i : ℕ) (bs : List β) : OooInfo β :=
  { s with buffers := Function.update s.buffers i bs }

/-! ## A new isle -/

/-- A free isle is taken; one that is not empty is made so. -/
def takeFreeIsle (s : OooInfo β) (i : ℕ) (rest : List ℕ) : OooInfo β :=
  let s := { s with freeIsles := rest }
  if (s.buffers i).isEmpty then s else (s.notice [.freeIsleNotEmpty]).setBuffers i []

def countIsle (s : OooInfo β) : OooInfo β :=
  let cur := (s.curIslesNumber + 1) % 2 ^ 32
  { s with
    curIslesNumber := cur
    genIslesNumber := (s.genIslesNumber + 1) % 2 ^ 32
    maxIslesNumber := if s.maxIslesNumber < cur then cur else s.maxIslesNumber }

/-- The isle gets its buffer, and comes behind another isle or to the front. -/
def linkIsle (s : OooInfo β) (a i : ℕ) (prev : Option ℕ) (b : β) : OooInfo β :=
  let s := (s.setBuffers i (b :: s.buffers i)).countIsle
  match prev with
  | none => s.setIsles a (i :: s.isles a)
  | some p => s.setIsles a (insertAfter p i (s.isles a))

/-- The part of `qed_ooo_add_new_isle` after the isle before the new one is found. -/
def addBehind (s : OooInfo β) (cid oooIsle : ℕ) (prev : Option ℕ) (b : β) : OooInfo β :=
  if (s.seekArchipelago cid).isNone ∧ oooIsle ≠ 1 then s.notice [.connectionNotFound cid]
  else
    match s.freeIsles with
    | [] => s.notice [.noMoreFreeIsles]
    | i :: rest => (s.takeFreeIsle i rest).linkIsle (s.idx cid) i prev b

def addNewIsle (s : OooInfo β) (cid oooIsle : ℕ) (b : β) : OooInfo β :=
  if 1 < oooIsle then
    match s.seekIsle cid (oooIsle - 1) with
    | none => s.notice (s.seekNotices cid ++ [.isleNotFound (oooIsle - 1) cid])
    | some p => s.addBehind cid oooIsle (some p) b
  else s.addBehind cid oooIsle none b

/-! ## A new buffer -/

/-- `qed_ooo_add_new_buffer`, on the left (`QED_OOO_LEFT_BUF`) or on the right. -/
def addNewBuffer (s : OooInfo β) (cid oooIsle : ℕ) (b : β) (left : Bool) : OooInfo β :=
  match s.seekIsle cid oooIsle with
  | none => s.notice (s.seekNotices cid ++ [.isleNotFound oooIsle cid])
  | some i => s.setBuffers i (if left then b :: s.buffers i else s.buffers i ++ [b])

/-! ## Joining isles -/

def unlinkIsle (s : OooInfo β) (a i : ℕ) : OooInfo β :=
  { s.setIsles a ((s.isles a).erase i) with curIslesNumber := Word.sub 32 s.curIslesNumber 1 }

/-- `qed_ooo_join_isles`: the isle on the right is joined to that on its left, or, if there is none,
to the ready list. -/
def joinIsles (s : OooInfo β) (cid leftIsle : ℕ) : OooInfo β :=
  match s.seekIsle cid ((leftIsle + 1) % 2 ^ 8) with
  | none => s.notice (s.seekNotices cid ++ [.rightIsleNotFound (leftIsle + 1) cid])
  | some r =>
    let s := s.unlinkIsle (s.idx cid) r
    if leftIsle ≠ 0 then
      match s.seekIsle cid leftIsle with
      | none => s.notice (s.seekNotices cid ++ [.leftIsleNotFound leftIsle cid])
      | some l =>
        let s := (s.setBuffers l (s.buffers l ++ s.buffers r)).setBuffers r []
        { s with freeIsles := s.freeIsles ++ [r] }
    else
      let s := { s with readyBuffers := s.readyBuffers ++ s.buffers r }.setBuffers r []
      { s with freeIsles := s.freeIsles ++ [r] }

/-! ## Deleting isles -/

def deleteIsle (s : OooInfo β) (cid dropIsle i : ℕ) : OooInfo β :=
  let s :=
    if (s.buffers i).isEmpty then s.notice [.isleEmpty dropIsle cid]
    else { s with freeBuffers := s.freeBuffers ++ s.buffers i }.setBuffers i []
  let s := s.unlinkIsle (s.idx cid) i
  { s with freeIsles := i :: s.freeIsles }

/-- `qed_ooo_delete_isles`, with `drop_size` the number of turns. -/
def deleteIsles (cid dropIsle : ℕ) : ℕ → OooInfo β → OooInfo β
  | 0, s => s
  | n + 1, s =>
    match s.seekIsle cid dropIsle with
    | none => s.notice (s.seekNotices cid ++ [.isleNotFound dropIsle cid])
    | some i => deleteIsles cid dropIsle n (s.deleteIsle cid dropIsle i)

/-! ## Releasing a connection -/

/-- The buffers of an isle go to the free list one by one. -/
def drainIsle (i : ℕ) : ℕ → OooInfo β → OooInfo β
  | 0, s => s
  | n + 1, s =>
    match s.buffers i with
    | [] => s
    | b :: bs => drainIsle i n ({ s with freeBuffers := s.freeBuffers ++ [b] }.setBuffers i bs)

/-- The isles of an archipelago go to the free list one by one. -/
def drainArchipelago (a : ℕ) : ℕ → OooInfo β → OooInfo β
  | 0, s => s
  | n + 1, s =>
    match s.isles a with
    | [] => s
    | i :: is =>
      let s := s.setIsles a is
      let s := drainIsle i (s.buffers i).length s
      drainArchipelago a n { s with freeIsles := s.freeIsles ++ [i] }

def releaseConnectionIsles (s : OooInfo β) (cid : ℕ) : OooInfo β :=
  match s.seekArchipelago cid with
  | none => s
  | some a => drainArchipelago a (s.isles a).length s

end OooInfo

/-! ## The operations -/

/-- A call. The numbers of isles and of turns are `u8`. -/
inductive OooOp (β : Type*)
  | addNewIsle (cid : ℕ) (oooIsle : Fin (2 ^ 8)) (b : β)
  | addNewBuffer (cid : ℕ) (oooIsle : Fin (2 ^ 8)) (b : β) (left : Bool)
  | joinIsles (cid : ℕ) (leftIsle : Fin (2 ^ 8))
  | deleteIsles (cid : ℕ) (dropIsle dropSize : Fin (2 ^ 8))
  | releaseConnectionIsles (cid : ℕ)

def OooOp.cid : OooOp β → ℕ
  | .addNewIsle cid _ _ => cid
  | .addNewBuffer cid _ _ _ => cid
  | .joinIsles cid _ => cid
  | .deleteIsles cid _ _ => cid
  | .releaseConnectionIsles cid => cid

def OooInfo.step (s : OooInfo β) : OooOp β → OooInfo β
  | .addNewIsle cid isle b => s.addNewIsle cid isle b
  | .addNewBuffer cid isle b left => s.addNewBuffer cid isle b left
  | .joinIsles cid left => s.joinIsles cid left
  | .deleteIsles cid drop size => .deleteIsles cid drop size s
  | .releaseConnectionIsles cid => s.releaseConnectionIsles cid

/-- The connection is one of the archipelagos, and the isles that the call names exist. -/
def OooInfo.Named (s : OooInfo β) (op : OooOp β) : Prop :=
  s.idx op.cid < s.maxNumArchipelagos ∧
    match op with
    | .addNewIsle cid isle _ => 1 ≤ isle.val ∧ isle ≤ (s.isles (s.idx cid)).length + 1
    | .addNewBuffer cid isle _ _ => 1 ≤ isle.val ∧ isle ≤ (s.isles (s.idx cid)).length
    | .joinIsles cid left => left + 1 ≤ (s.isles (s.idx cid)).length
    | .deleteIsles cid drop size =>
      1 ≤ drop.val ∧ drop + size ≤ (s.isles (s.idx cid)).length + 1
    | .releaseConnectionIsles _ => True

instance (s : OooInfo β) (op : OooOp β) : Decidable (s.Named op) := by
  unfold OooInfo.Named
  cases op <;> infer_instance

end FastLinQ.Qed
