import FastLinQ.Foundations.Word
import FastLinQ.Qed.Rdma.Bmap

/-!
# Calls for RDMA resources

Memory regions, CQs and SRQs have ids from bitmaps; the CID of a CQ also has a toggle bit, which
changes with each CREATE_CQ and RESIZE_CQ ramrod. A call that fails should leave all of this as it
was (`RdmaInfo.Proper`). `qed_rdma_alloc_tid_inner` keeps the id if there is no context memory for
it, `qed_rdma_resize_cq_inner` does not restore the toggle bit, and `qed_rdma_create_cq_inner` does
not look at the return code of the firmware.
-/

namespace FastLinQ.Qed

open Bmap

def RDMA_RETURN_OK : ℕ := 0

/-- The bitmaps of `struct qed_rdma_info`, and what ids are computed from. -/
structure RdmaInfo where
  tidMap : Bmap
  cqMap : Bmap
  srqMap : Bmap
  xrcSrqMap : Bmap
  toggleBits : ℕ → Bool
  /-- `qed_cxt_get_proto_cid_start` -/
  cidStart : ℕ
  srqIdOffset : ℕ
  xrcIdOffset : ℕ
  xrcSupported : Bool

structure RdmaEnv where
  dmaAlloc : Bool
  /-- `qed_cxt_dynamic_ilt_alloc` -/
  iltAlloc : Bool
  /-- `qed_rdma_configure_prs` -/
  configurePrs : Bool
  /-- `qed_sp_init_request` -/
  spInit : Bool
  /-- `qed_spq_post`: the return code of the firmware, or an error -/
  spqPost : Option ℕ

inductive RdmaCall
  | allocTid
  | createCq
  | resizeCq (icid : ℕ)
  | createSrq (isXrc : Bool)
  deriving DecidableEq, Repr

namespace RdmaInfo

variable (s : RdmaInfo) (env : RdmaEnv)

/-- The bit of a CID, in 32 bits. -/
def bmapId (icid : ℕ) : ℕ := Word.sub 32 icid s.cidStart

/-- The CID of an id, in 16 bits. -/
def icid (id : ℕ) : ℕ := (id + s.cidStart) % 2 ^ 16

def toggleBitCreateResizeCq (icid : ℕ) : RdmaInfo :=
  { s with
    toggleBits := Function.update s.toggleBits (s.bmapId icid) (!s.toggleBits (s.bmapId icid)) }

/-- `qed_rdma_alloc_tid_inner`; `none` is an error, here and below. -/
def allocTidInner : Option ℕ × RdmaInfo :=
  match s.tidMap.qedRdmaBmapAllocId with
  | (none, _) => (none, s)
  | (some itid, tidMap) => (if env.iltAlloc then some itid else none, { s with tidMap })

/-- The end of `qed_rdma_create_cq_inner` from `qed_spq_post` on. -/
def createCqPost (id icid : ℕ) : Option ℕ × RdmaInfo :=
  match env.spqPost with
  | some _ => (some icid, s)
  | none =>
    let s := s.toggleBitCreateResizeCq icid
    (none, { s with cqMap := s.cqMap.qedBmapReleaseId id })

def createCqInner : Option ℕ × RdmaInfo :=
  match s.cqMap.qedRdmaBmapAllocId with
  | (none, _) => (none, s)
  | (some id, cqMap) =>
    if env.iltAlloc && env.configurePrs && env.spInit then
      createCqPost (toggleBitCreateResizeCq { s with cqMap } (s.icid id)) env id (s.icid id)
    else (none, { s with cqMap := cqMap.qedBmapReleaseId id })

def resizeCqInner (icid : ℕ) : Option ℕ × RdmaInfo :=
  if env.dmaAlloc && env.spInit then
    (if env.spqPost = some RDMA_RETURN_OK then some icid else none, s.toggleBitCreateResizeCq icid)
  else (none, s)

/-- `qed_rdma_get_srq_bmap`. -/
def srqBmap : Bool → Bmap
  | true => s.xrcSrqMap
  | false => s.srqMap

def setSrqBmap (b : Bmap) : Bool → RdmaInfo
  | true => { s with xrcSrqMap := b }
  | false => { s with srqMap := b }

/-- `qed_rdma_get_srq_offset`. -/
def srqOffset : Bool → ℕ
  | true => s.xrcIdOffset
  | false => s.srqIdOffset

def srqId (isXrc : Bool) (id : ℕ) : ℕ := (id + s.srqOffset isXrc) % 2 ^ 16

def srqBit (isXrc : Bool) (srqId : ℕ) : ℕ := Word.sub 16 srqId (s.srqOffset isXrc)

def createSrqInner (isXrc : Bool) : Option ℕ × RdmaInfo :=
  if isXrc && !s.xrcSupported then (none, s)
  else
    match (s.srqBmap isXrc).qedRdmaBmapAllocId with
    | (none, _) => (none, s)
    | (some id, bmap) =>
      if env.iltAlloc && env.spInit && env.spqPost.isSome then
        (some (s.srqId isXrc id), s.setSrqBmap bmap isXrc)
      else (none, s.setSrqBmap (bmap.qedBmapReleaseId id) isXrc)

def call : RdmaCall → Option ℕ × RdmaInfo
  | .allocTid => s.allocTidInner env
  | .createCq => s.createCqInner env
  | .resizeCq icid => s.resizeCqInner env icid
  | .createSrq isXrc => s.createSrqInner env isXrc

/-! ## What a call should do -/

/-- The toggle bit of a CQ after a ramrod: it changes if the firmware accepts it. -/
def accepted (icid : ℕ) : RdmaInfo :=
  if env.spqPost = some RDMA_RETURN_OK then s.toggleBitCreateResizeCq icid else s

/-- What a call that returns an id should leave. -/
def after (id : ℕ) : RdmaCall → RdmaInfo
  | .allocTid => { s with tidMap := s.tidMap.setBit id }
  | .createCq => { s.accepted env id with cqMap := s.cqMap.setBit (s.bmapId id) }
  | .resizeCq _ => s.accepted env id
  | .createSrq isXrc => s.setSrqBmap ((s.srqBmap isXrc).setBit (s.srqBit isXrc id)) isXrc

/-- A call leaves everything as it was, or what it should leave for the id that it returns. -/
def Settles (after : ℕ → RdmaInfo) : Option ℕ × RdmaInfo → Prop
  | (none, s') => s' = s
  | (some id, s') => s' = after id

/-- A call that fails changes nothing; one that succeeds sets the bit of its id, and a toggle bit
changes with the ramrods that the firmware accepts. -/
def Proper (c : RdmaCall) : Prop := s.Settles (fun id => s.after env id c) (s.call env c)

/-- The condition on a call, for the id that it would get. -/
def CallOk : RdmaCall → Prop
  | .allocTid => s.tidMap.first < s.tidMap.maxCount → env.iltAlloc = true
  | .createCq => s.cqMap.first < s.cqMap.maxCount →
      (env.iltAlloc && env.configurePrs && env.spInit) = true → env.spqPost.isSome →
      env.spqPost = some RDMA_RETURN_OK ∧ s.bmapId (s.icid (s.cqMap.first)) = s.cqMap.first
  | .resizeCq _ => (env.dmaAlloc && env.spInit) = true → env.spqPost = some RDMA_RETURN_OK
  | .createSrq isXrc => (isXrc && !s.xrcSupported) = false →
      (s.srqBmap isXrc).first < (s.srqBmap isXrc).maxCount →
      (env.iltAlloc && env.spInit && env.spqPost.isSome) = true →
      s.srqBit isXrc (s.srqId isXrc ((s.srqBmap isXrc).first)) = (s.srqBmap isXrc).first

end RdmaInfo

/-! ## Bits -/

namespace Bmap

variable {b : Bmap} {i j : ℕ}

theorem setBit_ne (hi : b.bitmap i = false) : b.setBit i ≠ b := by
  intro h
  have := congrArg (fun b => b.bitmap i) h
  simp [setBit, hi] at this

theorem setBit_inj (hi : b.bitmap i = false) : b.setBit i = b.setBit j ↔ j = i := by
  refine ⟨fun h => ?_, fun h => by rw [h]⟩
  have := congrArg (fun b => b.bitmap i) h
  by_contra hne
  simp [setBit, hi, Function.update_of_ne (Ne.symm hne)] at this

theorem release_setBit (hlt : i < b.maxCount) (hi : b.bitmap i = false) :
    (b.setBit i).qedBmapReleaseId i = b := by
  have hle : ¬ (b.setBit i).maxCount ≤ i := Nat.not_le.2 hlt
  rw [qedBmapReleaseId, if_neg hle]
  simp [clearBit, setBit, ← hi]

end Bmap

namespace RdmaInfo

variable {s : RdmaInfo} {env : RdmaEnv}

theorem toggleBits_ne (icid : ℕ) : (s.toggleBitCreateResizeCq icid).toggleBits ≠ s.toggleBits := by
  intro h
  have := congrFun h (s.bmapId icid)
  simp [toggleBitCreateResizeCq] at this

theorem toggle_ne (icid : ℕ) : s.toggleBitCreateResizeCq icid ≠ s :=
  fun h => toggleBits_ne icid (congrArg RdmaInfo.toggleBits h)

theorem toggle_toggle (icid : ℕ) :
    (s.toggleBitCreateResizeCq icid).toggleBitCreateResizeCq icid = s := by
  simp [toggleBitCreateResizeCq, bmapId]

theorem setSrqBmap_inj {b b' : Bmap} {isXrc : Bool} :
    s.setSrqBmap b isXrc = s.setSrqBmap b' isXrc ↔ b = b' := by
  cases isXrc <;> simp [setSrqBmap]

theorem setSrqBmap_self (isXrc : Bool) : s.setSrqBmap (s.srqBmap isXrc) isXrc = s := by
  cases isXrc <;> rfl

/-! ## The calls -/

theorem allocTid_iff : s.Proper env .allocTid ↔ s.CallOk env .allocTid := by
  simp only [Proper, CallOk, call, allocTidInner]
  by_cases hid : s.tidMap.first < s.tidMap.maxCount
  · rw [allocId_first hid]
    cases hilt : env.iltAlloc with
    | true => simp [Settles, after]
    | false =>
      refine iff_of_false (fun h => ?_) (by simpa using hid)
      exact setBit_ne (bitmap_first hid) (congrArg RdmaInfo.tidMap h)
  · simp [allocId_full hid, hid, Settles]

theorem resizeCq_iff (icid : ℕ) :
    s.Proper env (.resizeCq icid) ↔ s.CallOk env (.resizeCq icid) := by
  simp only [Proper, CallOk, call, resizeCqInner]
  by_cases hinit : (env.dmaAlloc && env.spInit) = true
  · rw [if_pos hinit]
    by_cases hpost : env.spqPost = some RDMA_RETURN_OK
    · simp [hpost, Settles, after, accepted]
    · simpa [hpost, hinit, Settles] using toggle_ne icid
  · simp [hinit, Settles]

theorem createCq_iff : s.Proper env .createCq ↔ s.CallOk env .createCq := by
  simp only [Proper, CallOk, call, createCqInner]
  by_cases hid : s.cqMap.first < s.cqMap.maxCount
  · have hbit := bitmap_first hid
    have hback := release_setBit hid hbit
    rw [allocId_first hid]
    by_cases hinit : (env.iltAlloc && env.configurePrs && env.spInit) = true
    · simp only [hinit, if_true, hid, forall_const]
      cases hpost : env.spqPost with
      | none =>
        -- the toggle bit is restored, and the id is released
        simp [createCqPost, hpost, toggle_toggle, hback, Settles]
      | some code =>
        simp only [createCqPost, hpost, Option.isSome_some, forall_const, after, Settles]
        by_cases hok : code = RDMA_RETURN_OK
        · have haccept : s.accepted env (s.icid s.cqMap.first) =
              s.toggleBitCreateResizeCq (s.icid s.cqMap.first) := if_pos (by rw [hpost, hok])
          rw [haccept, hok, ← setBit_inj hbit]
          refine ⟨fun h => ⟨rfl, congrArg RdmaInfo.cqMap h⟩, fun h => ?_⟩
          rw [← h.2]
          rfl
        · have hrefuse : s.accepted env (s.icid s.cqMap.first) = s :=
            if_neg (by simpa [hpost] using hok)
          refine iff_of_false (fun h => ?_) (by simp [hok])
          rw [hrefuse] at h
          have htoggle := congrArg RdmaInfo.toggleBits h
          exact toggleBits_ne (s := s) _ htoggle
    · simp [hinit, hback, Settles]
  · simp [allocId_full hid, hid, Settles]

theorem createSrq_iff (isXrc : Bool) :
    s.Proper env (.createSrq isXrc) ↔ s.CallOk env (.createSrq isXrc) := by
  simp only [Proper, CallOk, call, createSrqInner]
  by_cases hxrc : (isXrc && !s.xrcSupported) = true
  · simp [hxrc, Settles]
  rw [if_neg hxrc, Bool.eq_false_iff.2 hxrc]
  by_cases hid : (s.srqBmap isXrc).first < (s.srqBmap isXrc).maxCount
  · have hbit := bitmap_first hid
    rw [allocId_first hid]
    by_cases hpost : (env.iltAlloc && env.spInit && env.spqPost.isSome) = true
    · simp only [hpost, if_true, hid, forall_const, Settles, after, setSrqBmap_inj]
      exact setBit_inj hbit
    · simp [hpost, release_setBit hid hbit, setSrqBmap_self, Settles]
  · simp [allocId_full hid, hid, Settles]

end RdmaInfo

/-- **A failed call changes nothing**, just if a memory region whose id is taken gets its context
memory, if the ramrod that resizes a CQ is accepted once it is posted, if a CREATE_CQ ramrod that
completes is accepted, and if the CIDs of CQs and the ids of SRQs fit in 16 bits. -/
theorem rdma_call_proper_iff (s : RdmaInfo) (env : RdmaEnv) (c : RdmaCall) :
    s.Proper env c ↔ s.CallOk env c := by
  cases c with
  | allocTid => exact RdmaInfo.allocTid_iff
  | createCq => exact RdmaInfo.createCq_iff
  | resizeCq icid => exact RdmaInfo.resizeCq_iff icid
  | createSrq isXrc => exact RdmaInfo.createSrq_iff isXrc

/-! ## Histories of calls -/

namespace RdmaInfo

/-- The bit of the CQ whose ramrod a call posts and the firmware accepts. -/
def acceptedBit (s : RdmaInfo) (env : RdmaEnv) : RdmaCall → Option ℕ
  | .createCq =>
    if s.cqMap.first < s.cqMap.maxCount ∧ (env.iltAlloc && env.configurePrs && env.spInit) = true ∧
        env.spqPost = some RDMA_RETURN_OK then some (s.bmapId (s.icid s.cqMap.first)) else none
  | .resizeCq icid =>
    if (env.dmaAlloc && env.spInit) = true ∧ env.spqPost = some RDMA_RETURN_OK then
      some (s.bmapId icid)
    else none
  | .allocTid | .createSrq _ => none

/-- Toggle bits of which one, or none, changes. -/
def flip (bits : ℕ → Bool) (changed : Option ℕ) : ℕ → Bool :=
  changed.elim bits fun i => Function.update bits i (!bits i)

/-- The part of `CallOk` that is about ramrods: the firmware accepts one that the driver takes for
accepted, or whose toggle bit it does not restore. -/
def RamrodOk (s : RdmaInfo) (env : RdmaEnv) : RdmaCall → Prop
  | .createCq => s.cqMap.first < s.cqMap.maxCount →
      (env.iltAlloc && env.configurePrs && env.spInit) = true → env.spqPost.isSome →
      env.spqPost = some RDMA_RETURN_OK
  | .resizeCq _ => (env.dmaAlloc && env.spInit) = true → env.spqPost = some RDMA_RETURN_OK
  | .allocTid | .createSrq _ => True

/-- One call, beside the toggle bits of the firmware, which changes one as it accepts a ramrod. -/
def callBoth (p : RdmaInfo × (ℕ → Bool)) (c : RdmaEnv × RdmaCall) : RdmaInfo × (ℕ → Bool) :=
  ((p.1.call c.1 c.2).2, flip p.2 (p.1.acceptedBit c.1 c.2))

/-- How many ramrods for a CQ the firmware accepts in a history of calls. -/
def acceptedRamrods (i : ℕ) : RdmaInfo × (ℕ → Bool) → List (RdmaEnv × RdmaCall) → ℕ
  | _, [] => 0
  | p, c :: l =>
    acceptedRamrods i (callBoth p c) l + if p.1.acceptedBit c.1 c.2 = some i then 1 else 0

variable {s : RdmaInfo} {env : RdmaEnv}

theorem flip_apply (bits : ℕ → Bool) (changed : Option ℕ) (i : ℕ) :
    flip bits changed i = (bits i ^^ decide (changed = some i)) := by
  cases changed with
  | none => simp [flip]
  | some j =>
    by_cases hij : j = i
    · subst hij
      simp [flip]
    · simp [flip, hij, Function.update_of_ne (Ne.symm hij)]

theorem toggleBits_createCq : (s.createCqInner env).2.toggleBits =
    flip s.toggleBits (s.acceptedBit env .createCq) ↔ s.RamrodOk env .createCq := by
  simp only [createCqInner, acceptedBit, RamrodOk]
  by_cases hid : s.cqMap.first < s.cqMap.maxCount
  · rw [allocId_first hid]
    by_cases hinit : (env.iltAlloc && env.configurePrs && env.spInit) = true
    · cases hpost : env.spqPost with
      | none =>
        -- the bit changes twice
        simp [hinit, createCqPost, hpost, toggleBitCreateResizeCq, bmapId, flip]
      | some code =>
        simp only [hinit, if_true, createCqPost, hpost, hid, true_and, forall_const,
          Option.isSome_some]
        by_cases hok : some code = some RDMA_RETURN_OK
        · simp only [hok, if_true, iff_true]
          rfl
        · simp only [hok, if_false, iff_false]
          exact toggleBits_ne (s := s) _
    · simp [hinit, flip]
  · simp [allocId_full hid, hid, flip]

/-- **The toggle bit of the driver**: a call changes it as the firmware does, just if the firmware
accepts the ramrod. -/
theorem toggleBits_call (c : RdmaCall) : (s.call env c).2.toggleBits =
    flip s.toggleBits (s.acceptedBit env c) ↔ s.RamrodOk env c := by
  cases c with
  | createCq => exact toggleBits_createCq
  | resizeCq icid =>
    simp only [call, resizeCqInner, acceptedBit, RamrodOk]
    by_cases hinit : (env.dmaAlloc && env.spInit) = true
    · simp only [hinit, if_true, true_and, forall_const]
      by_cases hpost : env.spqPost = some RDMA_RETURN_OK
      · simp only [hpost, if_true, iff_true]
        rfl
      · simp only [hpost, if_false, iff_false]
        exact toggleBits_ne (s := s) _
    · simp [hinit, flip]
  | allocTid =>
    simp only [call, allocTidInner, acceptedBit, RamrodOk, iff_true]
    rcases s.tidMap.qedRdmaBmapAllocId with ⟨_ | itid, tidMap⟩ <;> rfl
  | createSrq isXrc =>
    simp only [call, createSrqInner, acceptedBit, RamrodOk, iff_true]
    split
    · rfl
    · rcases (s.srqBmap isXrc).qedRdmaBmapAllocId with ⟨_ | id, bmap⟩
      · rfl
      · cases isXrc <;> dsimp only <;> split <;> rfl

end RdmaInfo

open RdmaInfo

/-- Driver and firmware have the same toggle bits throughout a history of calls, just if no ramrod
in it is refused that the driver does not take back. -/
theorem toggleBits_agree_iff {s : RdmaInfo} {l : List (RdmaEnv × RdmaCall)} :
    (∀ k, ((l.take k).foldl callBoth (s, s.toggleBits)).1.toggleBits =
      ((l.take k).foldl callBoth (s, s.toggleBits)).2) ↔
    Run.Meets (fun p c => p.1.RamrodOk c.1 c.2) callBoth (s, s.toggleBits) l := by
  refine Run.meets_iff_always (P := fun p : RdmaInfo × (ℕ → Bool) => p.1.toggleBits = p.2)
    ?_ rfl
  rintro ⟨s, fw⟩ c (rfl : s.toggleBits = fw)
  exact toggleBits_call c.2

/-- In such a history a toggle bit has changed just if the firmware has accepted an odd number of
ramrods for its CQ. -/
theorem toggleBits_run {p : RdmaInfo × (ℕ → Bool)} {l : List (RdmaEnv × RdmaCall)}
    (h : Run.Meets (fun p c => p.1.RamrodOk c.1 c.2) callBoth p l) (i : ℕ) :
    (l.foldl callBoth p).1.toggleBits i = (p.1.toggleBits i ^^ (acceptedRamrods i p l).bodd) := by
  induction l generalizing p with
  | nil => simp [acceptedRamrods]
  | cons c l ih =>
    have hbit : (callBoth p c).1.toggleBits i =
        (p.1.toggleBits i ^^ decide (p.1.acceptedBit c.1 c.2 = some i)) := by
      rw [← flip_apply, ← (toggleBits_call c.2).2 h.1]
      rfl
    rw [List.foldl_cons, ih h.2, hbit, acceptedRamrods]
    by_cases hc : p.1.acceptedBit c.1 c.2 = some i <;> simp [hc]

/-- Four of each resource, none in use. -/
def freshRdma : RdmaInfo :=
  let b : Bmap := ⟨4, fun _ => false⟩
  ⟨b, b, b, b, fun _ => false, 16, 4, 0, true⟩

/-- A memory region keeps its id without context memory; a CQ keeps a toggle bit that changed though
the firmware refused to resize it; and one is created though the firmware refused that. -/
theorem not_rdma_call_proper :
    ((freshRdma.call ⟨true, false, true, true, none⟩ .allocTid).1 = none ∧
      (freshRdma.call ⟨true, false, true, true, none⟩ .allocTid).2.tidMap.bitmap 0 = true) ∧
    ((freshRdma.call ⟨true, true, true, true, some 3⟩ (.resizeCq 16)).1 = none ∧
      (freshRdma.call ⟨true, true, true, true, some 3⟩ (.resizeCq 16)).2.toggleBits 0 = true) ∧
    (freshRdma.call ⟨true, true, true, true, some 5⟩ .createCq).1 = some 16 ∧
      (freshRdma.call ⟨true, true, true, true, some 5⟩ .createCq).2.toggleBits 0 = true := by
  decide

end FastLinQ.Qed
