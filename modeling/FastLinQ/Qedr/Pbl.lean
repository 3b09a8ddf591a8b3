import FastLinQ.Foundations.Cells
import FastLinQ.Foundations.Paged
import FastLinQ.Qed.Chain.Alloc

/-!
# Page buffer lists

The device finds the pages of a memory region through a page buffer list (PBL): a table of 64-bit
entries (PBEs), one for each page. A short table is one buffer. A long one has two layers: the first
buffer has the physical addresses of the others, which have the entries.

`qedr_prepare_pbl_tbl` chooses the geometry, `qedr_alloc_pbl_tbl` allocates the buffers and stores
the pointers of the first layer. `PblTbl.fwPbe` reads an entry as the device does, by physical
addresses.

An entry that is stored in its `PblTbl.cell` is the entry that the device reads, as long as the
pointers of the first layer are in place (`PblTbl.Linked`).
-/

namespace FastLinQ.Qedr

open Qed List Nat Option Cells Paged Except

/-! ## The geometry -/

def MIN_FW_PBL_PAGE_SIZE : ℕ := 4 * 1024

def MAX_FW_PBL_PAGE_SIZE : ℕ := 64 * 1024

def numPbesOnPage (pageSize : ℕ) : ℕ := pageSize / 8

def MAX_PBES_ON_PAGE : ℕ := numPbesOnPage MAX_FW_PBL_PAGE_SIZE

def MAX_PBES_TWO_LAYER : ℕ := MAX_PBES_ON_PAGE * MAX_PBES_ON_PAGE

structure PblInfo where
  numPbls : ℕ
  pblSize : ℕ
  numPbes : ℕ
  twoLayered : Bool
  deriving DecidableEq, Repr

/-- `roundup_pow_of_two`, which is `1UL << fls_long(n - 1)`. For zero the shift is by 64, that is by
nothing. -/
def roundupPowOfTwo (n : ℕ) : ℕ := 2 ^ size (n - 1)

/-- The loop of `qedr_prepare_pbl_tbl` for at most the given number of turns: `pbl_size` is doubled
until a layer of pointers to buffers of this size has enough entries. -/
def growPblSize (numPbes : ℕ) : ℕ → ℕ → Option ℕ
  | 0, _ => none
  | t + 1, pblSize =>
    if numPbesOnPage pblSize * numPbesOnPage pblSize % 2 ^ 32 < numPbes then
      growPblSize numPbes t (pblSize * 2 % 2 ^ 32)
    else some pblSize

/-- `qedr_prepare_pbl_tbl`. It would be at fault if its loop did not end. -/
def qedrPreparePblTbl (numPbes : ℕ) (twoLayerCapable : Bool) : Except AllocErr PblInfo :=
  if MAX_PBES_ON_PAGE < numPbes ∧ twoLayerCapable then
    if MAX_PBES_TWO_LAYER < numPbes then .error .einval
    else
      match growPblSize numPbes 5 MIN_FW_PBL_PAGE_SIZE with
      | none => .error .fault
      | some pblSize =>
        .ok ⟨(numPbes + numPbesOnPage pblSize - 1) / numPbesOnPage pblSize + 1, pblSize,
          numPbes, true⟩
  else .ok ⟨1, max MIN_FW_PBL_PAGE_SIZE (roundupPowOfTwo (numPbes * 8) % 2 ^ 32), numPbes, false⟩

namespace PblInfo

def perPage (info : PblInfo) : ℕ := numPbesOnPage info.pblSize

def firstPage (info : PblInfo) : ℕ := if info.twoLayered then 1 else 0

def entryPages (info : PblInfo) : ℕ := info.numPbls - info.firstPage

/-- There is room for the entries, and for the pointers to the buffers that have them. -/
def Sufficient (info : PblInfo) : Prop :=
  info.numPbes ≤ info.perPage * info.entryPages ∧
    (info.twoLayered = true → info.entryPages ≤ info.perPage)

/-- What `qedr_prepare_pbl_tbl` always sees to. -/
structure Shaped (info : PblInfo) : Prop where
  eight : 8 * info.perPage = info.pblSize
  perPage_pos : 0 < info.perPage
  entryPages_pos : 0 < info.entryPages
  numPbls_eq : info.numPbls = info.firstPage + info.entryPages
  single : info.twoLayered = false → info.numPbls = 1

end PblInfo

theorem PblInfo.firstPage_eq_one {info : PblInfo} (h : info.twoLayered = true) :
    info.firstPage = 1 := if_pos h

/-- A buffer of at least 8 bytes, whose size is a power of two. -/
theorem numPbesOnPage_pow {e : ℕ} (he : 3 ≤ e) :
    8 * numPbesOnPage (2 ^ e) = 2 ^ e ∧ 0 < numPbesOnPage (2 ^ e) := by
  obtain ⟨d, rfl⟩ := Nat.exists_eq_add_of_le he
  have hpow : 2 ^ (3 + d) = 8 * 2 ^ d := pow_add 2 3 d
  unfold numPbesOnPage
  rw [hpow, Nat.mul_div_cancel_left _ (by decide)]
  exact ⟨rfl, Nat.two_pow_pos d⟩

variable {numPbes : ℕ}

/-- The loop ends when the buffers have 64 kilobytes, at the latest. -/
theorem growPblSize_spec (h : numPbes ≤ MAX_PBES_TWO_LAYER) (t : ℕ) {e : ℕ} (he : t + e = 16)
    (hmin : 3 ≤ e) :
    ∃ e', 3 ≤ e' ∧ growPblSize numPbes (t + 1) (2 ^ e) = some (2 ^ e') ∧
      numPbes ≤ numPbesOnPage (2 ^ e') * numPbesOnPage (2 ^ e') := by
  induction t generalizing e with
  | zero =>
    obtain rfl : e = 16 := by omega
    have hcap : numPbesOnPage (2 ^ 16) * numPbesOnPage (2 ^ 16) = MAX_PBES_TWO_LAYER := by decide
    refine ⟨16, hmin, if_neg ?_, hcap ▸ h⟩
    exact not_lt.2 h
  | succ t ih =>
    by_cases hmore : numPbesOnPage (2 ^ e) * numPbesOnPage (2 ^ e) % 2 ^ 32 < numPbes
    · have hdouble : 2 ^ e * 2 % 2 ^ 32 = 2 ^ (e + 1) := by
        rw [← pow_succ]
        exact mod_eq_of_lt (Nat.pow_lt_pow_right (by decide) (by omega))
      obtain ⟨e', he', hgrow, hfits⟩ := ih (e := e + 1) (by omega) (by omega)
      refine ⟨e', he', ?_, hfits⟩
      rw [growPblSize, if_pos hmore, hdouble, hgrow]
    · exact ⟨e, hmin, if_neg hmore, (Nat.le_of_not_lt hmore).trans (mod_le _ _)⟩

theorem le_roundupPowOfTwo (n : ℕ) : n ≤ roundupPowOfTwo n := by
  have hlt := lt_size_self (n - 1)
  unfold roundupPowOfTwo
  omega

/-- The size of a table of one layer has only 32 bits. -/
theorem roundupPowOfTwo_mod (h : numPbes < 2 ^ 32) :
    (numPbes ≤ 2 ^ 28 → roundupPowOfTwo (numPbes * 8) % 2 ^ 32 = roundupPowOfTwo (numPbes * 8)) ∧
      (2 ^ 28 < numPbes → roundupPowOfTwo (numPbes * 8) % 2 ^ 32 = 0) := by
  refine ⟨fun hle => mod_eq_of_lt ?_, fun hlt => mod_eq_zero_of_dvd ?_⟩
  · refine Nat.pow_lt_pow_right (by decide) ?_
    have hsize : Nat.size (numPbes * 8 - 1) ≤ 31 := size_le.2 (by omega)
    omega
  · refine pow_dvd_pow 2 ?_
    by_contra hsize
    have hlt' := size_le.1 (show size (numPbes * 8 - 1) ≤ 31 by omega)
    omega

theorem one_layer_size (h : numPbes < 2 ^ 32) :
    ∃ e, 3 ≤ e ∧ max MIN_FW_PBL_PAGE_SIZE (roundupPowOfTwo (numPbes * 8) % 2 ^ 32) = 2 ^ e ∧
      (numPbes * 8 ≤ 2 ^ e ↔ numPbes ≤ 2 ^ 28) := by
  have hmin : MIN_FW_PBL_PAGE_SIZE = 2 ^ 12 := by decide
  obtain ⟨hsmall, hlarge⟩ := roundupPowOfTwo_mod h
  rw [hmin]
  rcases lt_or_ge (2 ^ 28) numPbes with hbig | hle
  · refine ⟨12, by decide, ?_, ?_⟩
    · rw [hlarge hbig]
      decide
    · omega
  · rw [hsmall hle]
    have hround := le_roundupPowOfTwo (numPbes * 8)
    refine ⟨max 12 (size (numPbes * 8 - 1)), ?_, ?_, iff_of_true (hround.trans ?_) hle⟩
    · exact (show 3 ≤ 12 by decide).trans (le_max_left _ _)
    · exact ((pow_right_mono₀ (show 1 ≤ 2 by decide)).map_max).symm
    · exact Nat.pow_le_pow_right (by decide) (le_max_right _ _)

/-- **The geometry.** It suffices for the entries, except where the size of a table of one layer
does not fit 32 bits. -/
theorem prepare_spec (hlt : numPbes < 2 ^ 32) {capable : Bool} {info : PblInfo}
    (h : qedrPreparePblTbl numPbes capable = .ok info) :
    info.numPbes = numPbes ∧ info.Shaped ∧
      (info.twoLayered = true ↔ MAX_PBES_ON_PAGE < numPbes ∧ capable = true) ∧
      (info.Sufficient ↔ capable = true ∨ numPbes ≤ 2 ^ 28) := by
  unfold qedrPreparePblTbl at h
  split at h
  · rename_i htwo
    by_cases hmany : MAX_PBES_TWO_LAYER < numPbes
    · rw [if_pos hmany] at h
      exact nomatch h
    have hmin : MIN_FW_PBL_PAGE_SIZE = 2 ^ 12 := by decide
    obtain ⟨e, he, hgrow, hfits⟩ := growPblSize_spec (Nat.le_of_not_lt hmany) 4 (e := 12) rfl
      (by decide)
    rw [if_neg hmany, hmin, hgrow] at h
    obtain rfl := ok.inj h
    have hshape := numPbesOnPage_pow he
    generalize 2 ^ e = size at hshape hfits
    have hceil : numPbes ≤ numPbesOnPage size *
        ((numPbes + numPbesOnPage size - 1) / numPbesOnPage size) := by
      have hdiv := lt_mul_div_succ (numPbes + numPbesOnPage size - 1) hshape.2
      rw [mul_add] at hdiv
      omega
    have hpages : (numPbes + numPbesOnPage size - 1) / numPbesOnPage size ≤ numPbesOnPage size := by
      rw [div_le_iff_le_mul_add_pred hshape.2]
      omega
    refine ⟨rfl, ⟨hshape.1, hshape.2, ?_, add_comm _ _, nofun⟩, iff_of_true rfl htwo,
      iff_of_true ⟨hceil, fun _ => hpages⟩ (.inl htwo.2)⟩
    refine pos_of_ne_zero fun hzero => ?_
    change (numPbes + numPbesOnPage size - 1) / numPbesOnPage size = 0 at hzero
    rw [hzero] at hceil
    omega
  · rename_i htwo
    obtain rfl := ok.inj h
    obtain ⟨e, he, hsize, hiff⟩ := one_layer_size hlt
    have hshape := numPbesOnPage_pow he
    rw [hsize]
    refine ⟨rfl, ⟨hshape.1, hshape.2, one_pos, rfl, fun _ => rfl⟩, iff_of_false nofun htwo, ?_⟩
    have hroom : numPbes ≤ numPbesOnPage (2 ^ e) * 1 ↔ numPbes ≤ 2 ^ 28 := by omega
    have hpage : MAX_PBES_ON_PAGE = 8192 := by decide
    refine (and_iff_left_of_imp fun _ => nofun).trans (hroom.trans ⟨.inr, fun hor => ?_⟩)
    rcases hor with hcap | hle
    · have hle : ¬MAX_PBES_ON_PAGE < numPbes := fun hmany => htwo ⟨hmany, hcap⟩
      omega
    · exact hle

/-! ## The table -/

/-- The buffers of a table, and the entries in memory, by virtual address. -/
structure PblTbl where
  pages : List DmaBlock
  mem : ℕ → BitVec 64

namespace PblTbl

def va (t : PblTbl) (k : ℕ) : ℕ := (t.pages[k]?.map DmaBlock.virt).getD 0

def pa (t : PblTbl) (k : ℕ) : ℕ := (t.pages[k]?.map DmaBlock.phys).getD 0

/-- The entry at `a` is inside of one of the buffers. -/
def Inside (t : PblTbl) (size a : ℕ) : Prop := ∃ b ∈ t.pages, b.virt ≤ a ∧ a + 8 ≤ b.virt + size
  deriving Decidable

/-- An entry is stored; outside of the buffers this is a fault. -/
def store (t : PblTbl) (size a : ℕ) (pbe : BitVec 64) : Except AllocErr PblTbl :=
  if t.Inside size a then .ok { t with mem := Function.update t.mem a pbe } else .error .fault

/-- The device reads an entry by its physical address. -/
def fetch (t : PblTbl) (size a : ℕ) : Option (BitVec 64) :=
  (t.pages.find? fun b => decide (b.phys ≤ a ∧ a + 8 ≤ b.phys + size)).map
    fun b => t.mem (b.virt + (a - b.phys))

/-- Entry `i` of the table as the device finds it, through the pointers of the first buffer if there
are two layers. -/
def fwPbe (info : PblInfo) (t : PblTbl) (i : ℕ) : Option (BitVec 64) :=
  if info.twoLayered then
    (t.fetch info.pblSize (t.pa 0 + 8 * (i / info.perPage))).bind fun ptr =>
      t.fetch info.pblSize (ptr.toNat + 8 * (i % info.perPage))
  else t.fetch info.pblSize (t.pa 0 + 8 * i)

def cell (info : PblInfo) (t : PblTbl) (i : ℕ) : ℕ :=
  t.va (info.firstPage + (place info.perPage info.entryPages i).1) +
    8 * (place info.perPage info.entryPages i).2

/-- The first buffer has the pointers to the others. -/
def Linked (info : PblInfo) (t : PblTbl) : Prop :=
  ∀ i, i + 1 < info.numPbls → t.mem (t.va 0 + 8 * i) = BitVec.ofNat 64 (t.pa (i + 1))

end PblTbl

/-- The loop `pbl_main_tbl[i] = pbl_table[i + 1].pa`. -/
def storePointers (size : ℕ) : ℕ → List DmaBlock → PblTbl → Except AllocErr PblTbl
  | _, [], t => .ok t
  | a, b :: bs, t =>
    match t.store size a (BitVec.ofNat 64 b.phys) with
    | .error e => .error e
    | .ok t' => storePointers size (a + 8) bs t'

/-- The first `n` buffers that `dma_zalloc_coherent` returns. -/
def allocPbls (env : DmaEnv) : ℕ → Option (List DmaBlock)
  | 0 => some []
  | n + 1 =>
    match allocPbls env n, env.page n with
    | some l, some b => some (l ++ [b])
    | _, _ => none

def qedrAllocPblTbl (env : DmaEnv) (info : PblInfo) : Except AllocErr PblTbl :=
  match if env.tbl then allocPbls env info.numPbls else none with
  | none => .error .enomem
  | some [] => .error .fault
  | some (b :: bs) => storePointers info.pblSize b.virt bs ⟨b :: bs, fun _ => 0⟩

/-- Two buffers of `size` bytes do not overlap. -/
structure DmaApart (size : ℕ) (a b : DmaBlock) : Prop where
  virt : a.virt + size ≤ b.virt ∨ b.virt + size ≤ a.virt
  phys : a.phys + size ≤ b.phys ∨ b.phys + size ≤ a.phys

/-- What `dma_zalloc_coherent` promises of `n` buffers of `size` bytes. -/
structure PblEnvOk (env : DmaEnv) (size n : ℕ) : Prop where
  apart : ∀ j k, j < k → k < n → ∀ a ∈ env.page j, ∀ b ∈ env.page k, DmaApart size a b
  valid : ∀ k < n, ∀ b ∈ env.page k, b.virt ≠ 0 ∧ b.phys + size ≤ 2 ^ 64

theorem PblEnvOk.backToBack {start sz n : ℕ} (hstart : 0 < start)
    (hend : start + (n + 1) * sz ≤ 2 ^ 64) : PblEnvOk (.backToBack start sz) sz n where
  apart j k hjk hk a ha b hb := by
    obtain rfl := mem_some.1 ha
    obtain rfl := mem_some.1 hb
    have hle := mul_le_mul_right sz (show j + 1 + 1 ≤ k + 1 by omega)
    rw [succ_mul] at hle
    exact ⟨.inl (by dsimp only; omega), .inl (by dsimp only; omega)⟩
  valid k hk b hb := by
    obtain rfl := mem_some.1 hb
    have hle := mul_le_mul_right sz (show k + 1 + 1 ≤ n + 1 by omega)
    rw [succ_mul] at hle
    exact ⟨by dsimp only; omega, by dsimp only; omega⟩

namespace PblTbl

structure Sound (info : PblInfo) (t : PblTbl) : Prop where
  shaped : info.Shaped
  length : t.pages.length = info.numPbls
  apart : t.pages.Pairwise (DmaApart info.pblSize)
  valid : ∀ b ∈ t.pages, b.virt ≠ 0 ∧ b.phys + info.pblSize ≤ 2 ^ 64

namespace Sound

variable {info : PblInfo} {t : PblTbl} (h : t.Sound info)

include h

theorem page {k : ℕ} (hk : k < info.numPbls) :
    ∃ b, t.pages[k]? = some b ∧ b ∈ t.pages ∧ t.va k = b.virt ∧ t.pa k = b.phys := by
  have hlt : k < t.pages.length := by rwa [h.length]
  refine ⟨t.pages[k], getElem?_eq_getElem hlt, getElem_mem hlt, ?_, ?_⟩
  · rw [va, getElem?_eq_getElem hlt]
    rfl
  · rw [pa, getElem?_eq_getElem hlt]
    rfl

/-- Different buffers do not overlap. -/
theorem pages_apart {j k : ℕ} (hj : j < info.numPbls) (hk : k < info.numPbls) (hjk : j ≠ k) :
    (t.va j + info.pblSize ≤ t.va k ∨ t.va k + info.pblSize ≤ t.va j) ∧
      (t.pa j + info.pblSize ≤ t.pa k ∨ t.pa k + info.pblSize ≤ t.pa j) := by
  wlog hlt : j < k generalizing j k
  · obtain ⟨hva, hpa⟩ := this hk hj hjk.symm (by omega)
    exact ⟨hva.symm, hpa.symm⟩
  obtain ⟨a, ha, -, hva, hpa⟩ := h.page hj
  obtain ⟨b, hb, -, hvb, hpb⟩ := h.page hk
  obtain ⟨hjl, rfl⟩ := List.getElem?_eq_some_iff.1 ha
  obtain ⟨hkl, rfl⟩ := List.getElem?_eq_some_iff.1 hb
  have hapart := pairwise_iff_getElem.1 h.apart j k hjl hkl hlt
  rw [hva, hvb, hpa, hpb]
  exact ⟨hapart.virt, hapart.phys⟩

theorem slot_le {s : ℕ} (hs : s < info.perPage) : 8 * s + 8 ≤ info.pblSize := by
  have height := h.shaped.eight
  omega

theorem slot_ne {j k r s : ℕ} (hj : j < info.numPbls) (hk : k < info.numPbls)
    (hr : r < info.perPage) (hs : s < info.perPage) (hne : (j, r) ≠ (k, s)) :
    t.va j + 8 * r ≠ t.va k + 8 * s := by
  have hrle := h.slot_le hr
  have hsle := h.slot_le hs
  rcases eq_or_ne j k with rfl | hjk
  · have hrs : r ≠ s := fun heq => hne (by rw [heq])
    omega
  · have hapart := (h.pages_apart hj hk hjk).1
    omega

theorem inside {k s : ℕ} (hk : k < info.numPbls) (hs : s < info.perPage) :
    t.Inside info.pblSize (t.va k + 8 * s) := by
  obtain ⟨b, -, hb, hva, -⟩ := h.page hk
  have hsle := h.slot_le hs
  exact ⟨b, hb, by omega, by omega⟩

theorem fetch_eq {k s : ℕ} (hk : k < info.numPbls) (hs : s < info.perPage) :
    t.fetch info.pblSize (t.pa k + 8 * s) = some (t.mem (t.va k + 8 * s)) := by
  have hsle := h.slot_le hs
  obtain ⟨b, hget, hb, hva, hpa⟩ := h.page hk
  have hin : decide (b.phys ≤ t.pa k + 8 * s ∧ t.pa k + 8 * s + 8 ≤ b.phys + info.pblSize) = true :=
    decide_eq_true (by omega)
  have hsome : (t.pages.find? fun b => decide (b.phys ≤ t.pa k + 8 * s ∧
      t.pa k + 8 * s + 8 ≤ b.phys + info.pblSize)).isSome := find?_isSome.2 ⟨b, hb, hin⟩
  obtain ⟨b', hfind⟩ := isSome_iff_exists.1 hsome
  have hfound := find?_some hfind
  rw [decide_eq_true_eq] at hfound
  obtain ⟨j, hj, rfl⟩ := mem_iff_getElem.1 (mem_of_find?_eq_some hfind)
  -- no other buffer has the address
  have hjk : j = k := by
    by_contra hne
    have hapart := (h.pages_apart (h.length ▸ hj) hk hne).2
    obtain ⟨b', hget', -, -, hpa'⟩ := h.page (h.length ▸ hj)
    rw [getElem?_eq_getElem hj, some_inj] at hget'
    rw [← hget'] at hpa'
    omega
  subst hjk
  rw [getElem?_eq_getElem hj, some_inj] at hget
  rw [fetch, hfind, map_some, hget, hva, ← hpa, Nat.add_sub_cancel_left]

theorem place_lt (i : ℕ) :
    info.firstPage + (place info.perPage info.entryPages i).1 < info.numPbls ∧
      (place info.perPage info.entryPages i).2 < info.perPage := by
  have hpage := place_fst_lt (U := info.perPage) h.shaped.entryPages_pos i
  have heq := h.shaped.numPbls_eq
  exact ⟨by omega, mod_lt _ h.shaped.perPage_pos⟩

theorem apart_cell : Apart (t.cell info) (info.perPage * info.entryPages) := by
  intro j k hjk hk
  obtain ⟨hj₁, hj₂⟩ := h.place_lt j
  obtain ⟨hk₁, hk₂⟩ := h.place_lt k
  refine h.slot_ne hj₁ hk₁ hj₂ hk₂ fun heq => place_ne hjk hk ?_
  obtain ⟨hfst, hsnd⟩ := Prod.mk.inj heq
  exact Prod.ext (add_left_cancel hfst) hsnd

theorem inside_cell (i : ℕ) : t.Inside info.pblSize (t.cell info i) :=
  h.inside (h.place_lt i).1 (h.place_lt i).2

/-- The pointers are not among the entries. -/
theorem pointer_ne_cell (htwo : info.twoLayered = true) {i : ℕ} (hi : i < info.perPage) (j : ℕ) :
    t.va 0 + 8 * i ≠ t.cell info j := by
  have hfirst := info.firstPage_eq_one htwo
  have heq := h.shaped.numPbls_eq
  obtain ⟨hj₁, hj₂⟩ := h.place_lt j
  refine h.slot_ne (by omega) hj₁ hi hj₂ fun heq => ?_
  have hpage := (Prod.mk.inj heq).1
  omega

omit h in
/-- The cell of an entry that the table has room for. -/
theorem cell_eq {i : ℕ} (hi : i < info.perPage * info.entryPages) :
    i / info.perPage < info.entryPages ∧
      t.cell info i = t.va (info.firstPage + i / info.perPage) + 8 * (i % info.perPage) := by
  have hdiv := Nat.div_lt_of_lt_mul hi
  refine ⟨hdiv, ?_⟩
  rw [cell, place]
  dsimp only
  rw [mod_eq_of_lt hdiv]

section

variable (hlinked : info.twoLayered = true → info.entryPages ≤ info.perPage ∧ t.Linked info)

include hlinked

/-- **What the device reads** is what is stored in the cell of the entry. -/
theorem fwPbe_eq {i : ℕ} (hi : i < info.perPage * info.entryPages) :
    t.fwPbe info i = some (t.mem (t.cell info i)) := by
  have hmod : i % info.perPage < info.perPage := mod_lt _ h.shaped.perPage_pos
  have heq := h.shaped.numPbls_eq
  obtain ⟨hdiv, hcell⟩ := cell_eq hi
  rw [hcell, fwPbe]
  cases htwo : info.twoLayered with
  | true =>
    have hfirst := info.firstPage_eq_one htwo
    obtain ⟨hpages, hlinked⟩ := hlinked htwo
    have hpage : i / info.perPage + 1 < info.numPbls := by omega
    obtain ⟨b, -, hb, -, hpa⟩ := h.page hpage
    have hphys := (h.valid b hb).2
    have hbig : 8 ≤ info.pblSize := by
      have height := h.shaped.eight
      have hpos := h.shaped.perPage_pos
      omega
    rw [if_pos rfl, h.fetch_eq (by omega) (hdiv.trans_le hpages), hlinked _ hpage, bind_some,
      BitVec.toNat_ofNat, mod_eq_of_lt (by omega), h.fetch_eq hpage hmod, hfirst, add_comm 1]
  | false =>
    have hfirst : info.firstPage = 0 := by rw [PblInfo.firstPage, htwo]; rfl
    have hone : info.entryPages = 1 := by
      have hsingle := h.shaped.single htwo
      omega
    have hzero : i / info.perPage = 0 := lt_one_iff.1 (hone ▸ hdiv)
    have hlt : i < info.perPage := by
      rw [Nat.div_eq_zero_iff] at hzero
      exact hzero.resolve_left h.shaped.perPage_pos.ne'
    rw [if_neg (by decide), h.fetch_eq (by omega) hlt, hfirst, hzero, mod_eq_of_lt hlt]

/-- Stores into the cells leave the table sound, and the pointers in place. -/
theorem write (l : List (BitVec 64)) :
    let t' : PblTbl := { t with mem := write (t.cell info) t.mem 0 l }
    t'.Sound info ∧ (info.twoLayered = true → info.entryPages ≤ info.perPage ∧ t'.Linked info) := by
  refine ⟨{ h with }, fun htwo => ?_⟩
  obtain ⟨hpages, hlinked⟩ := hlinked htwo
  refine ⟨hpages, fun i hi => ?_⟩
  have hfirst := info.firstPage_eq_one htwo
  have heq := h.shaped.numPbls_eq
  have hlt : i < info.perPage := by omega
  change Cells.write (t.cell info) t.mem 0 l (t.va 0 + 8 * i) = _
  rw [write_of_ne fun n _ _ => h.pointer_ne_cell htwo hlt n]
  exact hlinked i hi

/-- **A filled table**: the device reads the entries in order. -/
theorem fwPbe_write {l : List (BitVec 64)} (hl : l.length ≤ info.perPage * info.entryPages) :
    (range l.length).map
      (({ t with mem := Cells.write (t.cell info) t.mem 0 l } : PblTbl).fwPbe info) =
        l.map some := by
  obtain ⟨hsound, hlinked'⟩ := h.write hlinked l
  have hholds : Cells.Holds (t.cell info) (Cells.write (t.cell info) t.mem 0 l) 0 l :=
    holds_write h.apart_cell hl
  refine ext_getElem (by simp only [length_map, length_range]) fun i hi hi' => ?_
  rw [length_map, length_range] at hi
  rw [getElem_map, getElem_range, getElem_map, hsound.fwPbe_eq hlinked' (hi.trans_le hl), some_inj]
  have hget := holds_getElem hholds hi
  rwa [zero_add] at hget

end

end Sound

end PblTbl

/-! ## Allocating it -/

theorem allocPbls_spec {env : DmaEnv} {n : ℕ} {l : List DmaBlock} (h : allocPbls env n = some l) :
    l.length = n ∧ ∀ k < n, env.page k = l[k]? := by
  induction n generalizing l with
  | zero =>
    obtain rfl := Option.some.inj h
    exact ⟨rfl, nofun⟩
  | succ n ih =>
    unfold allocPbls at h
    split at h
    · next l' b hl hb =>
      obtain rfl := Option.some.inj h
      obtain ⟨hlen, hpages⟩ := ih hl
      refine ⟨by rw [length_append, hlen]; rfl, fun k hk => ?_⟩
      rcases Nat.lt_succ_iff_lt_or_eq.1 hk with hlt | rfl
      · rw [getElem?_append_left (hlen ▸ hlt)]
        exact hpages k hlt
      · rw [hb, getElem?_append_right hlen.le, hlen, Nat.sub_self]
        rfl
    · exact nomatch h

theorem storePointers_eq {size a : ℕ} (bs : List DmaBlock) (t : PblTbl) (k : ℕ)
    (h : ∀ i, k ≤ i → i < k + bs.length → t.Inside size (a + 8 * i)) :
    storePointers size (a + 8 * k) bs t = .ok { t with
      mem := write (fun i => a + 8 * i) t.mem k
        (bs.map fun b => BitVec.ofNat 64 b.phys) } := by
  induction bs generalizing t k with
  | nil => rfl
  | cons b bs ih =>
    rw [length_cons] at h
    rw [storePointers, PblTbl.store, if_pos (h k le_rfl (by omega))]
    dsimp only
    rw [show a + 8 * k + 8 = a + 8 * (k + 1) by omega, ih _ _ fun i hi hlt => ?_]
    · rfl
    · exact h i (by omega) (by omega)

/-- **Allocating a table** with room for the pointers: it is not at fault, and the table is sound.
-/
theorem alloc_spec {env : DmaEnv} {info : PblInfo} (hshape : info.Shaped)
    (hpages : info.twoLayered = true → info.entryPages ≤ info.perPage)
    (henv : PblEnvOk env info.pblSize info.numPbls) :
    qedrAllocPblTbl env info ≠ .error .fault ∧ ∀ t, qedrAllocPblTbl env info = .ok t →
      t.Sound info ∧ (info.twoLayered = true → info.entryPages ≤ info.perPage ∧ t.Linked info) := by
  have hpos : 0 < info.numPbls := by
    have heq := hshape.numPbls_eq
    have hentry := hshape.entryPages_pos
    omega
  unfold qedrAllocPblTbl
  cases halloc : if env.tbl then allocPbls env info.numPbls else none with
  | none => exact ⟨nofun, nofun⟩
  | some pages =>
    have hsome : allocPbls env info.numPbls = some pages := by
      split at halloc
      · exact halloc
      · exact nomatch halloc
    obtain ⟨hlen, hpage⟩ := allocPbls_spec hsome
    cases pages with
    | nil => exact absurd hlen.symm hpos.ne'
    | cons b bs =>
      have hsound : ∀ mem, PblTbl.Sound info ⟨b :: bs, mem⟩ := by
        intro mem
        have hmem : ∀ k (hk : k < (b :: bs).length), (b :: bs)[k] ∈ env.page k := by
          intro k hk
          rw [hpage k (hlen ▸ hk), getElem?_eq_getElem hk]
          rfl
        refine ⟨hshape, hlen, pairwise_iff_getElem.2 fun j k hj hk hjk => ?_, fun c hc => ?_⟩
        · exact henv.apart j k hjk (hlen ▸ hk) _ (hmem j hj) _ (hmem k hk)
        · obtain ⟨k, hk, rfl⟩ := mem_iff_getElem.1 hc
          exact henv.valid k (hlen ▸ hk) _ (hmem k hk)
      have hbs : bs.length + 1 = info.numPbls := hlen
      have hroom : ∀ i, 0 ≤ i → i < 0 + bs.length →
          PblTbl.Inside ⟨b :: bs, fun _ => 0⟩ info.pblSize (b.virt + 8 * i) := by
        intro i _ hi
        refine (hsound fun _ => 0).inside hpos ?_
        have heq := hshape.numPbls_eq
        cases htwo : info.twoLayered with
        | true =>
          have hfirst := info.firstPage_eq_one htwo
          have hle := hpages htwo
          omega
        | false =>
          have hone := hshape.single htwo
          omega
      have hstore := storePointers_eq bs ⟨b :: bs, fun _ => 0⟩ 0 hroom
      rw [Nat.add_zero] at hstore
      dsimp only
      rw [hstore]
      refine ⟨nofun, fun t ht => ?_⟩
      obtain rfl := ok.inj ht
      refine ⟨hsound _, fun htwo => ⟨hpages htwo, fun i hi => ?_⟩⟩
      have hlt : i < bs.length := by omega
      have happart : Apart (fun i => b.virt + 8 * i) bs.length := by
        intro j k hjk _
        dsimp only
        omega
      have hholds := holds_write (m := fun _ => 0) (k := 0)
        (l := bs.map fun b => BitVec.ofNat 64 b.phys) happart (by rw [length_map])
      have hget := holds_getElem hholds (by rwa [length_map])
      rw [zero_add, getElem_map] at hget
      refine hget.trans ?_
      rw [PblTbl.pa, getElem?_cons_succ, getElem?_eq_getElem hlt]
      rfl

end FastLinQ.Qedr
