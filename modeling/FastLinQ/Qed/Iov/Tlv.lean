import Mathlib

/-!
# The TLV list of a VF request

A VF places its request in a buffer of `TLV_BUFFER_SIZE` bytes: a list of TLVs, each with a header
of a type and a length, up to one of type `CHANNEL_TLV_LIST_END`. `qedIovSearchListTlvs` is the walk
over the headers, with the bytes it reads. The memory goes on behind the buffer, where the requests
of other VFs are.

The function compares the end of a TLV with the buffer only after it has read the TLV's header, it
does not compare the end of the first TLV, and it never compares the structure that its caller
reads. `searchList_safe_iff` says of which requests this is no harm (`RequestFits`); the walk ends
for any content.
-/

namespace FastLinQ.Qed

open List Nat

def TLV_BUFFER_SIZE : ℕ := 1024

def CHANNEL_TLV_LIST_END : ℕ := 13
def CHANNEL_TLV_VPORT_UPDATE_ACTIVATE : ℕ := 15
def CHANNEL_TLV_VPORT_UPDATE_TX_SWITCH : ℕ := 16
def CHANNEL_TLV_VPORT_UPDATE_VLAN_STRIP : ℕ := 17
def CHANNEL_TLV_VPORT_UPDATE_MCAST : ℕ := 18
def CHANNEL_TLV_VPORT_UPDATE_ACCEPT_PARAM : ℕ := 19
def CHANNEL_TLV_VPORT_UPDATE_RSS : ℕ := 20
def CHANNEL_TLV_VPORT_UPDATE_ACCEPT_ANY_VLAN : ℕ := 21
def CHANNEL_TLV_VPORT_UPDATE_SGE_TPA : ℕ := 22
def CHANNEL_TLV_QID : ℕ := 25

inductive TlvHandler
  | vpUpdateActParam
  | vpUpdateVlanParam
  | vpUpdateTxSwitch
  | vpUpdateMcastBinParam
  | vpUpdateAcceptFlag
  | vpUpdateAcceptAnyVlan
  | vpUpdateRssParam
  | vpUpdateSgeTpaParam
  | vfMbxQid
  deriving DecidableEq, Repr

def TlvHandler.tlv : TlvHandler → ℕ
  | .vpUpdateActParam => CHANNEL_TLV_VPORT_UPDATE_ACTIVATE
  | .vpUpdateVlanParam => CHANNEL_TLV_VPORT_UPDATE_VLAN_STRIP
  | .vpUpdateTxSwitch => CHANNEL_TLV_VPORT_UPDATE_TX_SWITCH
  | .vpUpdateMcastBinParam => CHANNEL_TLV_VPORT_UPDATE_MCAST
  | .vpUpdateAcceptFlag => CHANNEL_TLV_VPORT_UPDATE_ACCEPT_PARAM
  | .vpUpdateAcceptAnyVlan => CHANNEL_TLV_VPORT_UPDATE_ACCEPT_ANY_VLAN
  | .vpUpdateRssParam => CHANNEL_TLV_VPORT_UPDATE_RSS
  | .vpUpdateSgeTpaParam => CHANNEL_TLV_VPORT_UPDATE_SGE_TPA
  | .vfMbxQid => CHANNEL_TLV_QID

/-- `sizeof` the structure that a handler reads. -/
def TlvHandler.size : TlvHandler → ℕ
  | .vpUpdateActParam | .vpUpdateVlanParam | .vpUpdateTxSwitch => 8
  | .vpUpdateMcastBinParam => 72
  | .vpUpdateAcceptFlag | .vpUpdateAcceptAnyVlan => 8
  | .vpUpdateRssParam => 304
  | .vpUpdateSgeTpaParam => 24
  | .vfMbxQid => 8

/-! ## The walk -/

/-- A 16-bit field of the memory from the start of the buffer on. -/
def readU16 (m : ℕ → BitVec 8) (o : ℕ) : ℕ := (m o).toNat + 256 * (m (o + 1)).toNat

def tlvType (m : ℕ → BitVec 8) (o : ℕ) : ℕ := readU16 m o

def tlvLength (m : ℕ → BitVec 8) (o : ℕ) : ℕ := readU16 m (o + 2)

structure Span where
  start : ℕ
  size : ℕ
  deriving DecidableEq, Repr

def Span.InBuffer (s : Span) : Prop := s.start + s.size ≤ TLV_BUFFER_SIZE
  deriving Decidable

def typeSpan (o : ℕ) : Span := ⟨o, 2⟩

def lengthSpan (o : ℕ) : Span := ⟨o + 2, 2⟩

/-- What a search returns, as an offset into the buffer, and the bytes it read. -/
structure Search where
  found : Option ℕ
  reads : List Span
  deriving DecidableEq, Repr

/-- The loop of `qed_iov_search_list_tlvs`, at offset `len`. It has no result if the turns run
out. -/
def searchFrom (m : ℕ → BitVec 8) (reqType : ℕ) : ℕ → ℕ → Option Search
  | 0, _ => none
  | turns + 1, len =>
    if tlvLength m len = 0 then some ⟨none, [lengthSpan len]⟩
    else if tlvType m len = reqType then some ⟨some len, [lengthSpan len, typeSpan len]⟩
    else
      let next := len + tlvLength m len
      let reads := [lengthSpan len, typeSpan len, lengthSpan next]
      -- the length of the next TLV is read before it is compared
      if TLV_BUFFER_SIZE < next + tlvLength m next then some ⟨none, reads⟩
      else if tlvType m next = CHANNEL_TLV_LIST_END then some ⟨none, reads ++ [typeSpan next]⟩
      else
        (searchFrom m reqType turns next).map fun r =>
          ⟨r.found, reads ++ typeSpan next :: r.reads⟩

def qedIovSearchListTlvs (m : ℕ → BitVec 8) (reqType turns : ℕ) : Option Search :=
  searchFrom m reqType turns 0

/-! ## The headers of the list -/

def tlvOffset (m : ℕ → BitVec 8) : ℕ → ℕ
  | 0 => 0
  | k + 1 => tlvOffset m k + tlvLength m (tlvOffset m k)

/-- The search goes past TLV `k`: it is neither empty nor the one that is searched, and the next one
ends in the buffer and is not the end of the list. -/
def Passes (m : ℕ → BitVec 8) (reqType k : ℕ) : Prop :=
  tlvLength m (tlvOffset m k) ≠ 0 ∧ tlvType m (tlvOffset m k) ≠ reqType ∧
    tlvOffset m (k + 1) + tlvLength m (tlvOffset m (k + 1)) ≤ TLV_BUFFER_SIZE ∧
    tlvType m (tlvOffset m (k + 1)) ≠ CHANNEL_TLV_LIST_END

/-- If TLV `k` is the searched one, its structure is in the buffer, and if it is another one, the
next header is. -/
def FramedAt (m : ℕ → BitVec 8) (reqType size k : ℕ) : Prop :=
  tlvLength m (tlvOffset m k) ≠ 0 →
    if tlvType m (tlvOffset m k) = reqType then tlvOffset m k + size ≤ TLV_BUFFER_SIZE
    else tlvOffset m (k + 1) + 4 ≤ TLV_BUFFER_SIZE

/-- TLV `k` is reached: those before it are neither empty nor searched, and it and those before it,
but for the first, end in the buffer and are not the end of the list. -/
def Reached (m : ℕ → BitVec 8) (reqType k : ℕ) : Prop :=
  (∀ j < k, tlvLength m (tlvOffset m j) ≠ 0 ∧ tlvType m (tlvOffset m j) ≠ reqType) ∧
    ∀ j, 0 < j → j ≤ k → tlvOffset m (j + 1) ≤ TLV_BUFFER_SIZE ∧
      tlvType m (tlvOffset m j) ≠ CHANNEL_TLV_LIST_END

/-- **What a request has to be** for a search to stay in the buffer. -/
structure RequestFits (m : ℕ → BitVec 8) (reqType size : ℕ) : Prop where
  /-- The first TLV leaves room for another header. -/
  first : tlvLength m 0 ≠ 0 → tlvType m 0 ≠ reqType → tlvLength m 0 ≤ 1020
  /-- The others end in the buffer as they are reached, and leave room for another header. -/
  later : ∀ k, 0 < k → Reached m reqType k → tlvLength m (tlvOffset m k) ≠ 0 →
    tlvType m (tlvOffset m k) ≠ reqType → tlvOffset m (k + 1) ∉ Set.Icc 1021 1024
  /-- The structure that is read starts where it fits. -/
  found : ∀ k, Reached m reqType k → tlvLength m (tlvOffset m k) ≠ 0 →
    tlvType m (tlvOffset m k) = reqType → tlvOffset m k ≤ TLV_BUFFER_SIZE - size

def Search.Safe (r : Search) (size : ℕ) : Prop :=
  (∀ s ∈ r.reads, s.InBuffer) ∧ ∀ o, r.found = some o → o + size ≤ TLV_BUFFER_SIZE

section Walk

variable {m : ℕ → BitVec 8} {reqType size k : ℕ}

variable {o : ℕ}

theorem header_inBuffer :
    (∀ s ∈ [lengthSpan o, typeSpan o], s.InBuffer) ↔ o + 4 ≤ TLV_BUFFER_SIZE := by
  refine ⟨fun h => h (lengthSpan o) mem_cons_self, fun h => ?_⟩
  refine forall_mem_cons.2 ⟨h, forall_mem_singleton.2 ?_⟩
  change o + 2 ≤ TLV_BUFFER_SIZE
  omega

theorem safe_length : (Search.mk none [lengthSpan o]).Safe size ↔ o + 4 ≤ TLV_BUFFER_SIZE :=
  (and_iff_left nofun).trans forall_mem_singleton

/-- The TLVs from number `k` on are in the buffer as far as the search goes. -/
def FramedFrom (m : ℕ → BitVec 8) (reqType size k : ℕ) : Prop :=
  ∀ j, k ≤ j → (∀ i < j, Passes m reqType i) → FramedAt m reqType size j

/-- A search that ends at TLV `k` only has that one to care for. -/
theorem framedFrom_of_not_passes (hpass : ∀ i < k, Passes m reqType i)
    (h : ¬ Passes m reqType k) :
    FramedFrom m reqType size k ↔ FramedAt m reqType size k := by
  refine ⟨fun hall => hall k (Nat.le_refl k) hpass, fun hk j hj hpass' => ?_⟩
  rcases Nat.eq_or_lt_of_le hj with rfl | hlt
  · exact hk
  · exact absurd (hpass' k hlt) h

theorem framedFrom_of_passes (hpass : ∀ i < k, Passes m reqType i) :
    FramedFrom m reqType size k ↔
      FramedAt m reqType size k ∧ FramedFrom m reqType size (k + 1) := by
  refine ⟨fun hall => ⟨hall k (Nat.le_refl k) hpass, fun j hj => hall j (by omega)⟩, ?_⟩
  rintro ⟨hk, hall⟩ j hj hpass'
  rcases Nat.eq_or_lt_of_le hj with rfl | hlt
  · exact hk
  · exact hall j hlt hpass'

theorem safe_header_cons {found : Option ℕ} {reads : List Span} :
    (Search.mk found (lengthSpan o :: typeSpan o :: reads)).Safe size ↔
      o + 4 ≤ TLV_BUFFER_SIZE ∧ (Search.mk found reads).Safe size := by
  have hreads : (∀ s ∈ lengthSpan o :: typeSpan o :: reads, s.InBuffer) ↔
      (∀ s ∈ [lengthSpan o, typeSpan o], s.InBuffer) ∧ ∀ s ∈ reads, s.InBuffer := by
    rw [← forall_mem_append]
    rfl
  rw [Search.Safe, hreads, header_inBuffer, and_assoc]
  rfl

theorem exists_searchFrom_of_end (hpass : ∀ i < k, Passes m reqType i)
    (hstop : ¬ Passes m reqType k) {r : Search}
    (hr : ∀ turns, searchFrom m reqType (turns + 1) (tlvOffset m k) = some r)
    (hsafe : r.Safe size ↔
      tlvOffset m k + 4 ≤ TLV_BUFFER_SIZE ∧ FramedAt m reqType size k) (d : ℕ) :
    ∃ r, (∀ turns, d < turns → searchFrom m reqType turns (tlvOffset m k) = some r) ∧
      (r.Safe size ↔ tlvOffset m k + 4 ≤ TLV_BUFFER_SIZE ∧ FramedFrom m reqType size k) := by
  refine ⟨r, fun turns hturns => ?_, ?_⟩
  · obtain ⟨n, rfl⟩ : ∃ n, turns = n + 1 := ⟨turns - 1, by omega⟩
    exact hr n
  · rw [hsafe, framedFrom_of_not_passes hpass hstop]

/-- **The search from TLV `k` on.** The induction is on the room behind it. -/
theorem exists_searchFrom (hpass : ∀ i < k, Passes m reqType i) {d : ℕ}
    (hle : tlvOffset m k ≤ TLV_BUFFER_SIZE) (hd : TLV_BUFFER_SIZE ≤ tlvOffset m k + d) :
    ∃ r, (∀ turns, d < turns → searchFrom m reqType turns (tlvOffset m k) = some r) ∧
      (r.Safe size ↔ tlvOffset m k + 4 ≤ TLV_BUFFER_SIZE ∧ FramedFrom m reqType size k) := by
  induction d using Nat.strong_induction_on generalizing k with
  | h d ih =>
  by_cases hzero : tlvLength m (tlvOffset m k) = 0
  · refine exists_searchFrom_of_end hpass (fun h => h.1 hzero) (fun turns => if_pos hzero) ?_ d
    have hframed : FramedAt m reqType size k := fun h => absurd hzero h
    rw [safe_length, and_iff_left hframed]
  by_cases htype : tlvType m (tlvOffset m k) = reqType
  · refine exists_searchFrom_of_end hpass (fun h => h.2.1 htype)
      (fun turns => (if_neg hzero).trans (if_pos htype)) ?_ d
    have hframed : FramedAt m reqType size k ↔ tlvOffset m k + size ≤ TLV_BUFFER_SIZE := by
      simp [FramedAt, hzero, htype]
    rw [hframed]
    exact and_congr header_inBuffer (by simp only [Option.some.injEq, forall_eq'])
  have hframed : FramedAt m reqType size k ↔ tlvOffset m (k + 1) + 4 ≤ TLV_BUFFER_SIZE := by
    simp [FramedAt, hzero, htype]
  by_cases hover : TLV_BUFFER_SIZE < tlvOffset m (k + 1) + tlvLength m (tlvOffset m (k + 1))
  · refine exists_searchFrom_of_end hpass (fun h => Nat.not_le.2 hover h.2.2.1)
      (fun turns => (if_neg hzero).trans ((if_neg htype).trans (if_pos hover))) ?_ d
    rw [hframed]
    exact safe_header_cons.trans (and_congr_right' safe_length)
  by_cases hend : tlvType m (tlvOffset m (k + 1)) = CHANNEL_TLV_LIST_END
  · refine exists_searchFrom_of_end hpass (fun h => h.2.2.2 hend)
      (fun turns => (if_neg hzero).trans ((if_neg htype).trans ((if_neg hover).trans
        (if_pos hend)))) ?_ d
    rw [hframed]
    exact safe_header_cons.trans (and_congr_right' ((and_iff_left nofun).trans header_inBuffer))
  have hnext : tlvOffset m (k + 1) = tlvOffset m k + tlvLength m (tlvOffset m k) := rfl
  have hpass' : ∀ i < k + 1, Passes m reqType i := by
    intro i hi
    rcases Nat.lt_succ_iff_lt_or_eq.1 hi with hi | rfl
    · exact hpass i hi
    · exact ⟨hzero, htype, Nat.not_lt.1 hover, hend⟩
  obtain ⟨r, hr, hsafe⟩ := ih (TLV_BUFFER_SIZE - tlvOffset m (k + 1)) (by omega) hpass' (by omega)
    (by omega)
  refine ⟨⟨r.found, [lengthSpan (tlvOffset m k), typeSpan (tlvOffset m k),
    lengthSpan (tlvOffset m (k + 1))] ++ typeSpan (tlvOffset m (k + 1)) :: r.reads⟩,
    fun turns hturns => ?_, ?_⟩
  · obtain ⟨n, rfl⟩ : ∃ n, turns = n + 1 := ⟨turns - 1, by omega⟩
    rw [searchFrom, if_neg hzero, if_neg htype]
    simp [← hnext, if_neg hover, if_neg hend, hr n (by omega), Option.map_some]
  · rw [framedFrom_of_passes hpass, hframed]
    refine safe_header_cons.trans (and_congr_right' (safe_header_cons.trans ?_))
    exact (and_congr_right' hsafe).trans and_self_left

theorem passes_iff_reached : (∀ j < k, Passes m reqType j) ↔ Reached m reqType k := by
  constructor
  · intro h
    refine ⟨fun j hj => ⟨(h j hj).1, (h j hj).2.1⟩, fun j hpos hj => ?_⟩
    obtain ⟨i, rfl⟩ := Nat.exists_eq_succ_of_ne_zero hpos.ne'
    exact (h i hj).2.2
  · rintro ⟨hbefore, hends⟩ j hj
    exact ⟨(hbefore j hj).1, (hbefore j hj).2, hends (j + 1) (Nat.succ_pos j) hj⟩

/-- The headers are in the buffer as far as the search goes exactly if the request fits. -/
theorem framedFrom_zero_iff (hsize : size ≤ TLV_BUFFER_SIZE) :
    FramedFrom m reqType size 0 ↔ RequestFits m reqType size := by
  have hbuf : TLV_BUFFER_SIZE = 1024 := rfl
  have hone : tlvOffset m (0 + 1) = tlvLength m 0 := Nat.zero_add _
  constructor
  · intro h
    have hat : ∀ k, Reached m reqType k → FramedAt m reqType size k := fun k hk =>
      h k (zero_le k) (passes_iff_reached.2 hk)
    refine ⟨fun hl ht => ?_, fun k _ hk hl ht => ?_, fun k hk hl ht => ?_⟩
    · have := hat 0 (passes_iff_reached.1 nofun) hl
      rw [if_neg (by exact ht)] at this
      omega
    · have := hat k hk hl
      rw [if_neg ht] at this
      rw [Set.mem_Icc]
      omega
    · have := hat k hk hl
      rw [if_pos ht] at this
      omega
  · intro h k _ hpass hl
    have hk := passes_iff_reached.1 hpass
    split
    · have := h.found k hk hl ‹_›
      omega
    · rcases Nat.eq_zero_or_pos k with rfl | hpos
      · have := h.first hl ‹_›
        omega
      · have := h.later k hpos hk hl ‹_›
        rw [Set.mem_Icc] at this
        have := (hk.2 k hpos (Nat.le_refl k)).1
        omega

end Walk

/-- **Parsing a request.** The search ends after at most 1025 turns for every content of the memory;
it reads only bytes of the buffer and returns a structure inside it exactly if the request fits. -/
theorem searchList_safe_iff (m : ℕ → BitVec 8) (h : TlvHandler) :
    ∃ r, (∀ turns, TLV_BUFFER_SIZE < turns → qedIovSearchListTlvs m h.tlv turns = some r) ∧
      (r.Safe h.size ↔ RequestFits m h.tlv h.size) := by
  have hfirst : tlvOffset m 0 + 4 ≤ TLV_BUFFER_SIZE := by
    change 0 + 4 ≤ 1024
    decide
  have hsize : h.size ≤ TLV_BUFFER_SIZE := by cases h <;> decide
  obtain ⟨r, hr, hsafe⟩ : ∃ r, (∀ turns, TLV_BUFFER_SIZE < turns →
      searchFrom m h.tlv turns (tlvOffset m 0) = some r) ∧ (r.Safe h.size ↔ _) :=
    exists_searchFrom (fun i hi => absurd hi (not_lt_zero i)) (zero_le _) (Nat.le_add_left ..)
  exact ⟨r, hr, hsafe.trans ((and_iff_right hfirst).trans (framedFrom_zero_iff hsize))⟩

/-- A request of two TLVs and the end of the list, the second with the number of a queue. -/
def qidRequest : ℕ → BitVec 8 := fun o =>
  [5, 0, 16, 0, 0, 0, 0, 0, 0, 0, 0, 0, 0, 0, 0, 0, 25, 0, 8, 0, 1, 0, 0, 0, 13, 0, 8].getD o 0

theorem searchList_qidRequest : ∃ r, qedIovSearchListTlvs qidRequest 25 1025 = some r ∧
    r.found = some 16 ∧ r.Safe 8 ∧ RequestFits qidRequest 25 8 := by
  obtain ⟨r, hr, hsafe⟩ := searchList_safe_iff qidRequest .vfMbxQid
  have hrun := hr 1025 (by decide)
  obtain rfl : ⟨some 16, [lengthSpan 0, typeSpan 0, lengthSpan 16, typeSpan 16, lengthSpan 16,
    typeSpan 16]⟩ = r := Option.some.inj (hrun.symm.trans (by decide +kernel)).symm
  have hin : Search.Safe ⟨some 16, [lengthSpan 0, typeSpan 0, lengthSpan 16, typeSpan 16,
      lengthSpan 16, typeSpan 16]⟩ 8 :=
    ⟨by decide, fun o ho => by cases ho; decide⟩
  exact ⟨_, hrun, rfl, hin, hsafe.1 hin⟩

/-- A request that is a single TLV of the largest length. -/
def hugeTlv : ℕ → BitVec 8 := fun o => [3, 0, 255, 255].getD o 0

/-- Its length leads the search 64 kB behind the buffer. -/
theorem searchList_hugeTlv :
    ¬ ∀ (m : ℕ → BitVec 8) (h : TlvHandler) (turns : ℕ) (r : Search), TLV_BUFFER_SIZE < turns →
      qedIovSearchListTlvs m h.tlv turns = some r → r.Safe h.size := by
  intro hall
  have hsafe := hall hugeTlv .vpUpdateRssParam 1025 ⟨none, [lengthSpan 0, typeSpan 0,
    lengthSpan 65535]⟩ (by decide) (by decide +kernel)
  exact absurd (hsafe.1 (lengthSpan 65535) (by decide)) (by decide)

end FastLinQ.Qed
