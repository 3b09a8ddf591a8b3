import FastLinQ.Qedr.Pbl

/-!
# Registered memory

`qedr_populate_pbls` goes through the pages of a memory region and through the firmware pages of
each of them, and stores their addresses one after the other, from buffer to buffer. It returns when
it has stored as many as the table is for.
-/

namespace FastLinQ.Qedr

open Qed List Nat Cells Paged

/-! ## The function -/

/-- The locals of `qedr_populate_pbls`: the table, the index of the buffer, the address of the next
entry, and the entries in this buffer and in all of them. -/
structure Filling where
  tbl : PblTbl
  pblTbl : ℕ
  pbe : ℕ
  pbeCnt : ℕ
  total : ℕ

/-- The loops go on, the function returns, or it is at fault. -/
inductive FillStep
  | more (s : Filling)
  | done (t : PblTbl)
  | fault

namespace Filling

/-- One turn of the inner loop. Behind the last of the buffers there is none to move to. -/
def put (info : PblInfo) (s : Filling) (pgAddr : BitVec 64) : FillStep :=
  match s.tbl.store info.pblSize s.pbe pgAddr with
  | .error _ => .fault
  | .ok t =>
    if s.total + 1 = info.numPbes then .done t
    else if s.pbeCnt + 1 = info.perPage then
      match t.pages[s.pblTbl + 1]? with
      | none => .fault
      | some b => .more ⟨t, s.pblTbl + 1, b.virt, 0, s.total + 1⟩
    else .more ⟨t, s.pblTbl, s.pbe + 8, s.pbeCnt + 1, s.total + 1⟩

/-- The inner loop, over the firmware pages of a page. -/
def fwPages (info : PblInfo) (pgShift : ℕ) : ℕ → BitVec 64 → Filling → FillStep
  | 0, _, s => .more s
  | n + 1, pgAddr, s =>
    match s.put info pgAddr with
    | .more s' => fwPages info pgShift n (pgAddr + BitVec.ofNat 64 (2 ^ pgShift)) s'
    | r => r

def umemPages (info : PblInfo) (pgShift fwPgPerUmemPg : ℕ) : List (BitVec 64) → Filling → FillStep
  | [], s => .more s
  | pgAddr :: umem, s =>
    match s.fwPages info pgShift fwPgPerUmemPg pgAddr with
    | .more s' => umemPages info pgShift fwPgPerUmemPg umem s'
    | r => r

end Filling

/-- `qedr_populate_pbls`, for pages of `2 ^ pageShift` bytes. -/
def qedrPopulatePbls (info : PblInfo) (pageShift pgShift : ℕ) (umem : List (BitVec 64))
    (t : PblTbl) :
    Except AllocErr PblTbl :=
  if info.numPbes = 0 then .ok t
  else
    match t.pages[info.firstPage]? with
    | none => .error .fault
    | some b =>
      if b.virt = 0 then .ok t
      else
        match Filling.umemPages info pgShift (2 ^ (pageShift - pgShift)) umem
          ⟨t, info.firstPage, b.virt, 0, 0⟩ with
        | .more s => .ok s.tbl
        | .done t' => .ok t'
        | .fault => .error .fault

def fwPageAddrs (pgShift n : ℕ) (pgAddr : BitVec 64) : List (BitVec 64) :=
  (range n).map fun j => pgAddr + BitVec.ofNat 64 (j * 2 ^ pgShift)

/-- The addresses of the firmware pages of a memory region. -/
def umemAddrs (pageShift pgShift : ℕ) (umem : List (BitVec 64)) : List (BitVec 64) :=
  umem.flatMap (fwPageAddrs pgShift (2 ^ (pageShift - pgShift)))

theorem length_umemAddrs (pageShift pgShift : ℕ) (umem : List (BitVec 64)) :
    (umemAddrs pageShift pgShift umem).length = umem.length * 2 ^ (pageShift - pgShift) := by
  induction umem with
  | nil => exact (zero_mul _).symm
  | cons a umem ih =>
    rw [umemAddrs, flatMap_cons, length_append, length_cons, succ_mul, add_comm]
    refine congrArg₂ _ ih ?_
    rw [fwPageAddrs, length_map, length_range]

/-! ## One loop instead of two -/

namespace Filling

def putAll (info : PblInfo) : List (BitVec 64) → Filling → FillStep
  | [], s => .more s
  | a :: l, s =>
    match s.put info a with
    | .more s' => putAll info l s'
    | r => r

variable {info : PblInfo}

theorem putAll_append (l r : List (BitVec 64)) (s : Filling) :
    s.putAll info (l ++ r) =
      match s.putAll info l with
      | .more s' => s'.putAll info r
      | x => x := by
  induction l generalizing s with
  | nil => rfl
  | cons a l ih =>
    rw [cons_append, putAll, putAll]
    cases s.put info a with
    | more s' => exact ih s'
    | done t => rfl
    | fault => rfl

theorem fwPageAddrs_succ (pgShift n : ℕ) (a : BitVec 64) :
    fwPageAddrs pgShift (n + 1) a =
      a :: fwPageAddrs pgShift n (a + BitVec.ofNat 64 (2 ^ pgShift)) := by
  unfold fwPageAddrs
  rw [range_succ_eq_map, map_cons, map_map, zero_mul, BitVec.add_zero]
  refine congrArg _ (map_congr_left fun j _ => ?_)
  dsimp only [Function.comp]
  rw [succ_mul, Nat.add_comm, BitVec.ofNat_add, BitVec.add_assoc]

theorem fwPages_eq (pgShift n : ℕ) (a : BitVec 64) (s : Filling) :
    s.fwPages info pgShift n a = s.putAll info (fwPageAddrs pgShift n a) := by
  induction n generalizing a s with
  | zero => rfl
  | succ n ih =>
    rw [fwPageAddrs_succ, fwPages, putAll]
    cases s.put info a with
    | more s' => exact ih _ s'
    | done t => rfl
    | fault => rfl

theorem umemPages_eq (pageShift pgShift : ℕ) (umem : List (BitVec 64)) (s : Filling) :
    s.umemPages info pgShift (2 ^ (pageShift - pgShift)) umem =
      s.putAll info (umemAddrs pageShift pgShift umem) := by
  induction umem generalizing s with
  | nil => rfl
  | cons a umem ih =>
    rw [umemAddrs, flatMap_cons, putAll_append, umemPages, fwPages_eq]
    cases s.putAll info (fwPageAddrs pgShift (2 ^ (pageShift - pgShift)) a) with
    | more s' => exact ih s'
    | done t => rfl
    | fault => rfl

end Filling

/-! ## Where it stands -/

/-- The entries `l` are stored in the table `t`. -/
structure FillAt (info : PblInfo) (t : PblTbl) (l : List (BitVec 64)) (s : Filling) : Prop where
  tbl : s.tbl = { t with mem := write (t.cell info) t.mem 0 l }
  pblTbl : s.pblTbl = info.firstPage + l.length / info.perPage
  pbe : s.pbe = t.va s.pblTbl + 8 * s.pbeCnt
  pbeCnt : s.pbeCnt = l.length % info.perPage
  total : s.total = l.length

namespace FillAt

variable {info : PblInfo} {t : PblTbl} {l : List (BitVec 64)} {s : Filling} (hs : t.Sound info)
  (h : FillAt info t l s) (hl : l.length < info.perPage * info.entryPages)

include hs h hl

/-- The next entry goes into its cell. -/
theorem store (a : BitVec 64) : s.tbl.store info.pblSize s.pbe a =
    .ok { t with mem := write (t.cell info) t.mem 0 (l ++ [a]) } := by
  have hpbe : s.pbe = t.cell info l.length := by
    rw [(PblTbl.Sound.cell_eq hl).2, h.pbe, h.pblTbl, h.pbeCnt]
  have hin : s.tbl.Inside info.pblSize s.pbe := by
    rw [h.tbl, hpbe]
    exact hs.inside_cell l.length
  rw [PblTbl.store, if_pos hin, h.tbl, hpbe, write_append, zero_add]
  rfl

/-- An entry that is not the last one, in a table that has room for the next one. -/
theorem put_more (hlast : l.length + 1 ≠ info.numPbes)
    (hroom : l.length + 1 < info.perPage * info.entryPages) (a : BitVec 64) :
    ∃ s', s.put info a = .more s' ∧ FillAt info t (l ++ [a]) s' := by
  have htotal : ¬s.total + 1 = info.numPbes := by rwa [h.total]
  have hlen : (l ++ [a]).length = l.length + 1 := length_append
  have hmod := succ_mod hs.shaped.perPage_pos l.length
  have hdiv := succ_div hs.shaped.perPage_pos l.length
  rw [Filling.put, h.store hs hl a]
  dsimp only
  rw [if_neg htotal]
  by_cases hfull : s.pbeCnt + 1 = info.perPage
  · -- the buffer is full
    rw [h.pbeCnt] at hfull
    rw [if_pos hfull] at hmod hdiv
    have hpage : s.pblTbl + 1 < info.numPbls := by
      have hnext := (PblTbl.Sound.cell_eq (t := t) hroom).1
      have heq := hs.shaped.numPbls_eq
      rw [h.pblTbl]
      omega
    obtain ⟨b, hget, -, hva, -⟩ := hs.page hpage
    rw [if_pos (h.pbeCnt ▸ hfull), hget]
    refine ⟨_, rfl, rfl, ?_, hva.symm, ?_, ?_⟩
    · rw [hlen, hdiv, h.pblTbl, add_assoc]
    · rw [hlen, hmod]
    · rw [hlen, h.total]
  · rw [if_neg hfull]
    rw [h.pbeCnt] at hfull
    rw [if_neg hfull] at hmod hdiv
    refine ⟨_, rfl, rfl, ?_, ?_, ?_, ?_⟩
    · rw [hlen, hdiv, h.pblTbl]
    · rw [h.pbe, mul_add, add_assoc]
    · rw [hlen, hmod, h.pbeCnt]
    · rw [hlen, h.total]

/-- The table is full, but there are more entries. -/
theorem put_fault (hlast : l.length + 1 ≠ info.numPbes)
    (hfull : l.length + 1 = info.perPage * info.entryPages) (a : BitVec 64) :
    s.put info a = .fault := by
  have hmod := succ_mod hs.shaped.perPage_pos l.length
  have hdiv := succ_div hs.shaped.perPage_pos l.length
  rw [hfull, mul_mod_right] at hmod
  have hcnt : l.length % info.perPage + 1 = info.perPage := by
    by_contra hne
    rw [if_neg hne] at hmod
    exact nomatch hmod
  rw [hfull, if_pos hcnt, Nat.mul_div_cancel_left _ hs.shaped.perPage_pos] at hdiv
  have hpages : ¬s.pblTbl + 1 < t.pages.length := by
    have heq := hs.shaped.numPbls_eq
    rw [hs.length, h.pblTbl]
    omega
  rw [Filling.put, h.store hs hl a]
  dsimp only
  rw [if_neg (by rwa [h.total]), if_pos (by rw [h.pbeCnt, hcnt]), getElem?_eq_none (by omega)]

end FillAt

variable {info : PblInfo} {t : PblTbl}

section

variable (hs : t.Sound info)

include hs

/-- **The loop** stores the first entries, as many as the table is for. -/
theorem putAll_done (hroom : info.numPbes ≤ info.perPage * info.entryPages) {l r : List (BitVec 64)}
    {s : Filling} (h : FillAt info t l s) (hl : l.length < info.numPbes)
    (hr : info.numPbes ≤ l.length + r.length) :
    s.putAll info r = .done { t with
      mem := write (t.cell info) t.mem 0 ((l ++ r).take info.numPbes) } := by
  induction r generalizing l s with
  | nil => exact absurd hr (not_le.2 hl)
  | cons a r ih =>
    have hlen : (l ++ [a]).length = l.length + 1 := length_append
    have hsplit : l ++ a :: r = (l ++ [a]) ++ r := by rw [append_assoc]; rfl
    rw [length_cons] at hr
    rw [Filling.putAll, hsplit]
    by_cases hlast : l.length + 1 = info.numPbes
    · simp only [Filling.put, h.store hs (hl.trans_le hroom) a]
      rw [if_pos (by rw [h.total, hlast]), take_left' (hlen.trans hlast)]
    · obtain ⟨s', hput, hnext⟩ := h.put_more hs (hl.trans_le hroom) hlast (by omega) a
      rw [hput]
      exact ih hnext (by omega) (by omega)

/-- A loop that has more entries than the table has room for is at fault. -/
theorem putAll_fault (hroom : info.perPage * info.entryPages < info.numPbes)
    {l r : List (BitVec 64)} {s : Filling} (h : FillAt info t l s)
    (hl : l.length < info.perPage * info.entryPages) (hr : info.numPbes ≤ l.length + r.length) :
    s.putAll info r = .fault := by
  induction r generalizing l s with
  | nil =>
    rw [length_nil] at hr
    omega
  | cons a r ih =>
    have hlen : (l ++ [a]).length = l.length + 1 := length_append
    rw [length_cons] at hr
    rw [Filling.putAll]
    by_cases hfull : l.length + 1 = info.perPage * info.entryPages
    · rw [h.put_fault hs hl (by omega) hfull a]
    · obtain ⟨s', hput, hnext⟩ := h.put_more hs hl (by omega) (by omega) a
      rw [hput]
      exact ih hnext (by omega) (by omega)

theorem populate_eq (hpos : info.numPbes ≠ 0) (pageShift pgShift : ℕ) (umem : List (BitVec 64)) :
    ∃ s, FillAt info t [] s ∧ qedrPopulatePbls info pageShift pgShift umem t =
      match s.putAll info (umemAddrs pageShift pgShift umem) with
      | .more s' => .ok s'.tbl
      | .done t' => .ok t'
      | .fault => .error .fault := by
  have hfirst : info.firstPage < info.numPbls := by
    have heq := hs.shaped.numPbls_eq
    have hentry := hs.shaped.entryPages_pos
    omega
  obtain ⟨b, hget, hb, hva, -⟩ := hs.page hfirst
  refine ⟨⟨t, info.firstPage, b.virt, 0, 0⟩, ⟨rfl, ?_, hva.symm, (zero_mod _).symm, rfl⟩, ?_⟩
  · change _ = _ + 0 / _
    rw [Nat.zero_div]
    rfl
  · rw [qedrPopulatePbls, if_neg hpos, hget]
    dsimp only
    rw [if_neg (hs.valid b hb).1, Filling.umemPages_eq]

theorem populate_spec (hroom : info.numPbes ≤ info.perPage * info.entryPages)
    {pageShift pgShift : ℕ} {umem : List (BitVec 64)}
    (hlen : info.numPbes ≤ (umemAddrs pageShift pgShift umem).length) :
    qedrPopulatePbls info pageShift pgShift umem t = .ok { t with
      mem := write (t.cell info) t.mem 0
        ((umemAddrs pageShift pgShift umem).take info.numPbes) } := by
  by_cases hpos : info.numPbes = 0
  · rw [qedrPopulatePbls, if_pos hpos, hpos]
    rfl
  · obtain ⟨s, hat, heq⟩ := populate_eq hs hpos pageShift pgShift umem
    rw [heq, putAll_done hs hroom hat (pos_of_ne_zero hpos), nil_append]
    rwa [length_nil, zero_add]

end

/-- **Registered memory is described correctly.** For every number of pages for which
`qedr_prepare_pbl_tbl` succeeds, every memory region with as many firmware pages and all buffers
that the allocator may return: the table has room for the entries and for the pointers, no store
goes outside of it, and the device reads the addresses of the firmware pages in order; exactly if
two layers are allowed, or the size of a table of one layer fits 32 bits. -/
theorem registered_memory_described_iff {numPbes : ℕ} (hlt : numPbes < 2 ^ 32) {capable : Bool}
    {info : PblInfo} (hprep : qedrPreparePblTbl numPbes capable = .ok info) {env : DmaEnv}
    (henv : PblEnvOk env info.pblSize info.numPbls) {pageShift pgShift : ℕ}
    {umem : List (BitVec 64)} (hlen : numPbes ≤ (umemAddrs pageShift pgShift umem).length) :
    (info.Sufficient ∧ qedrAllocPblTbl env info ≠ .error .fault ∧
      ∀ t, qedrAllocPblTbl env info = .ok t →
        ∃ t', qedrPopulatePbls info pageShift pgShift umem t = .ok t' ∧
          (range numPbes).map (t'.fwPbe info) =
            ((umemAddrs pageShift pgShift umem).take numPbes).map some) ↔
      capable = true ∨ numPbes ≤ 2 ^ 28 := by
  obtain ⟨hnum, hshape, -, hiff⟩ := prepare_spec hlt hprep
  rw [← hiff]
  refine ⟨fun h => h.1, fun hsuff => ?_⟩
  obtain ⟨hfault, halloc⟩ := alloc_spec hshape hsuff.2 henv
  refine ⟨hsuff, hfault, fun t ht => ?_⟩
  obtain ⟨hs, hlinked⟩ := halloc t ht
  have htake : ((umemAddrs pageShift pgShift umem).take info.numPbes).length = numPbes := by
    rw [length_take, hnum, min_eq_left hlen]
  have hread := hs.fwPbe_write hlinked (l := (umemAddrs pageShift pgShift umem).take info.numPbes)
    (by rw [htake, ← hnum]; exact hsuff.1)
  refine ⟨_, populate_spec hs hsuff.1 (hnum ▸ hlen), ?_⟩
  rw [htake, hnum] at hread
  rw [hnum]
  exact hread

/-- A region of 8193 pages: two layers, with 17 buffers for the entries. -/
theorem registered_memory_described_two_layers :
    qedrPreparePblTbl 8193 true = .ok ⟨18, 4096, 8193, true⟩ ∧
      ∀ t, qedrAllocPblTbl (.backToBack 0x10000 4096) ⟨18, 4096, 8193, true⟩ = .ok t →
        ∃ t', qedrPopulatePbls ⟨18, 4096, 8193, true⟩ 12 12 (replicate 8193 0x5000) t = .ok t' ∧
          (range 8193).map (t'.fwPbe ⟨18, 4096, 8193, true⟩) =
            ((umemAddrs 12 12 (replicate 8193 0x5000)).take 8193).map some := by
  have hprep : qedrPreparePblTbl 8193 true = .ok ⟨18, 4096, 8193, true⟩ := by decide
  have hlen : 8193 ≤ (umemAddrs 12 12 (replicate 8193 0x5000)).length := by
    rw [length_umemAddrs, length_replicate]
    decide
  exact ⟨hprep, ((registered_memory_described_iff (by decide) hprep
    (.backToBack (by decide) (by decide)) hlen).2 (.inl rfl)).2.2⟩

/-- A user queue of a little more than a terabyte. The size of its table is cut to zero and then
raised to 4096 bytes; the function runs out of the only buffer. -/
theorem not_registered_memory_described :
    qedrPreparePblTbl (2 ^ 28 + 1) false = .ok ⟨1, 4096, 2 ^ 28 + 1, false⟩ ∧
      ∃ t, qedrAllocPblTbl (.backToBack 0x10000 4096) ⟨1, 4096, 2 ^ 28 + 1, false⟩ = .ok t ∧
        ∀ umem : List (BitVec 64), 2 ^ 28 + 1 ≤ umem.length →
          qedrPopulatePbls ⟨1, 4096, 2 ^ 28 + 1, false⟩ 12 12 umem t = .error .fault := by
  have hprep : qedrPreparePblTbl (2 ^ 28 + 1) false = .ok ⟨1, 4096, 2 ^ 28 + 1, false⟩ := by
    rw [qedrPreparePblTbl, if_neg (by decide), (roundupPowOfTwo_mod (by decide)).2 (by decide)]
    rfl
  obtain ⟨-, hshape, -, -⟩ := prepare_spec (by decide) hprep
  refine ⟨hprep, _, rfl, fun umem hlen => ?_⟩
  have henv : PblEnvOk (.backToBack 0x10000 4096) 4096 1 := .backToBack (by decide) (by decide)
  obtain ⟨hs, -⟩ := (alloc_spec hshape nofun henv).2 _ rfl
  obtain ⟨s, hat, heq⟩ := populate_eq hs (by decide) 12 12 umem
  rw [heq, putAll_fault hs (by decide) hat (by decide) ?_]
  rw [length_umemAddrs]
  change 2 ^ 28 + 1 ≤ 0 + umem.length * 1
  omega

end FastLinQ.Qedr
