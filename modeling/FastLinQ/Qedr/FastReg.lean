import FastLinQ.Qedr.Pbl

/-!
# Fast registration

An MR for fast registration is allocated with a table for the largest number of pages it may be
given. `qedr_set_page` is called with one page after the other; it computes the place of the entry
from the number of pages so far, and begins with the first buffer.

In a table of two layers the first buffer has the pointers to the others. They are overwritten.
-/

namespace FastLinQ.Qedr

open Qed List PblTbl

/-- The part of `struct qedr_mr` that has the table. -/
structure FastMr where
  info : PblInfo
  tbl : PblTbl
  npages : ℕ

/-- `__qedr_alloc_mr`, as far as the table is concerned. -/
def qedrAllocMr (env : DmaEnv) (maxNumSg : ℕ) : Except AllocErr FastMr :=
  match qedrPreparePblTbl maxNumSg true with
  | .error e => .error e
  | .ok info => (qedrAllocPblTbl env info).map fun t => ⟨info, t, 0⟩

namespace FastMr

def qedrSetPage (mr : FastMr) (addr : BitVec 64) : Except AllocErr FastMr :=
  if mr.npages = mr.info.numPbes then .error .enomem
  else
    match mr.tbl.pages[mr.npages / mr.info.perPage]? with
    | none => .error .fault
    | some b =>
      match mr.tbl.store mr.info.pblSize (b.virt + 8 * (mr.npages % mr.info.perPage)) addr with
      | .error e => .error e
      | .ok t => .ok { mr with tbl := t, npages := mr.npages + 1 }

def setPages : List (BitVec 64) → FastMr → Except AllocErr FastMr
  | [], mr => .ok mr
  | addr :: addrs, mr =>
    match mr.qedrSetPage addr with
    | .error e => .error e
    | .ok mr' => setPages addrs mr'

/-- The MR after the pages `l`, in a table of one layer. -/
def after (mr : FastMr) (l : List (BitVec 64)) : FastMr :=
  { mr with
    tbl := { mr.tbl with mem := Cells.write (mr.tbl.cell mr.info) mr.tbl.mem 0 l }
    npages := l.length }

variable {mr : FastMr}

theorem setPage_after (hs : mr.tbl.Sound mr.info) (hone : mr.info.twoLayered = false)
    {l : List (BitVec 64)} (hl : l.length < mr.info.numPbes)
    (hroom : mr.info.numPbes ≤ mr.info.perPage * mr.info.entryPages) (addr : BitVec 64) :
    (mr.after l).qedrSetPage addr = .ok (mr.after (l ++ [addr])) := by
  have hfirst : mr.info.firstPage = 0 := by rw [PblInfo.firstPage, hone]; rfl
  have hlt := hl.trans_le hroom
  obtain ⟨hdiv, hcell⟩ := Sound.cell_eq hlt
  rw [hfirst, Nat.zero_add] at hcell
  have heq := hs.shaped.numPbls_eq
  have hpage : l.length / mr.info.perPage < mr.info.numPbls := by
    rw [heq, hfirst, Nat.zero_add]
    exact hdiv
  obtain ⟨b, hget, -, hva, -⟩ := hs.page hpage
  rw [hva] at hcell
  have hin : Inside (mr.after l).tbl mr.info.pblSize (mr.tbl.cell mr.info l.length) :=
    hs.inside_cell l.length
  change (if l.length = mr.info.numPbes then _ else
    match mr.tbl.pages[l.length / mr.info.perPage]? with
    | none => _
    | some b => match (mr.after l).tbl.store mr.info.pblSize
        (b.virt + 8 * (l.length % mr.info.perPage)) addr with
      | .error e => _
      | .ok t => _) = _
  rw [if_neg hl.ne, hget]
  dsimp only
  rw [← hcell, store, if_pos hin]
  unfold after
  rw [Cells.write_append, length_append, Nat.zero_add]
  rfl

/-- **All pages** go into the cells of their entries. -/
theorem setPages_after (mr : FastMr) (hs : mr.tbl.Sound mr.info) (hone : mr.info.twoLayered = false)
    (hroom : mr.info.numPbes ≤ mr.info.perPage * mr.info.entryPages) {l r : List (BitVec 64)}
    (hlen : l.length + r.length ≤ mr.info.numPbes) :
    (mr.after l).setPages r = .ok (mr.after (l ++ r)) := by
  induction r generalizing l with
  | nil => rw [append_nil, setPages]
  | cons addr r ih =>
    rw [length_cons] at hlen
    rw [setPages, setPage_after hs hone (by omega) hroom]
    have hnext : (l ++ [addr]).length + r.length ≤ mr.info.numPbes := by
      rw [length_append, length_singleton]
      omega
    have hrest := ih hnext
    rwa [append_assoc] at hrest

/-- What `qedr_set_page` does when it succeeds. -/
theorem setPage_ok {addr : BitVec 64} {mr' : FastMr} (h : mr.qedrSetPage addr = .ok mr') :
    ∃ b, mr.tbl.pages[mr.npages / mr.info.perPage]? = some b ∧
      mr'.tbl.mem =
        Function.update mr.tbl.mem (b.virt + 8 * (mr.npages % mr.info.perPage)) addr := by
  unfold qedrSetPage at h
  split at h
  · exact nomatch h
  split at h
  · exact nomatch h
  · next b hget =>
    refine ⟨b, hget, ?_⟩
    unfold store at h
    by_cases hin : mr.tbl.Inside mr.info.pblSize (b.virt + 8 * (mr.npages % mr.info.perPage))
    · rw [if_pos hin] at h
      obtain rfl := Except.ok.inj h
      rfl
    · rw [if_neg hin] at h
      exact nomatch h

/-- The first page is stored in the first buffer. -/
theorem setPages_first (mr : FastMr) (hs : mr.tbl.Sound mr.info) {addr : BitVec 64} {mr' : FastMr}
    (h : ({ mr with npages := 0 } : FastMr).setPages [addr] = .ok mr') :
    mr'.tbl.mem (mr.tbl.va 0) = addr := by
  have hpos : 0 < mr.info.numPbls := by
    have heq := hs.shaped.numPbls_eq
    have hentry := hs.shaped.entryPages_pos
    omega
  unfold setPages at h
  split at h
  · exact nomatch h
  · next mr'' hset =>
    obtain rfl := Except.ok.inj h
    obtain ⟨b, hget, hmem⟩ := setPage_ok hset
    obtain ⟨b', hget', -, hva, -⟩ := hs.page hpos
    rw [Nat.zero_div, hget', Option.some_inj] at hget
    rw [hmem, Nat.zero_mod, Nat.add_zero, hva, hget, Function.update_self]

end FastMr

/-- **Fast-registered memory is described correctly**, for all lists of pages that the MR may be
given, exactly if they fit a table of one layer: the pages are accepted, the device reads them in
order, and the pointers of the first layer are as `qedr_alloc_pbl_tbl` left them. -/
theorem fast_registered_memory_described_iff {maxNumSg : ℕ} (hlt : maxNumSg < 2 ^ 32) {env : DmaEnv}
    {mr : FastMr} (halloc : qedrAllocMr env maxNumSg = .ok mr)
    (henv : PblEnvOk env mr.info.pblSize mr.info.numPbls) :
    (∀ addrs : List (BitVec 64), addrs.length ≤ maxNumSg →
      ∃ mr', ({ mr with npages := 0 } : FastMr).setPages addrs = .ok mr' ∧
        (List.range addrs.length).map (mr'.tbl.fwPbe mr'.info) = addrs.map some ∧
        (mr.info.twoLayered = true → ∀ i, i + 1 < mr.info.numPbls →
          mr'.tbl.mem (mr.tbl.va 0 + 8 * i) = mr.tbl.mem (mr.tbl.va 0 + 8 * i))) ↔
      maxNumSg ≤ MAX_PBES_ON_PAGE := by
  unfold qedrAllocMr at halloc
  cases hprep : qedrPreparePblTbl maxNumSg true with
  | error e =>
    rw [hprep] at halloc
    cases halloc
  | ok info =>
    rw [hprep] at halloc
    obtain ⟨t, ht, rfl⟩ := exists_of_map_ok halloc
    obtain ⟨hnum, hshape, htwo, hsuff⟩ := prepare_spec hlt hprep
    obtain ⟨hroom, hpages⟩ := hsuff.2 (.inl rfl)
    obtain ⟨hs, hlinked⟩ := (alloc_spec hshape hpages henv).2 t ht
    refine ⟨fun h => ?_, fun hle addrs hlen => ?_⟩
    · by_contra hmany
      have hlayers : info.twoLayered = true := htwo.2 ⟨Nat.lt_of_not_le hmany, rfl⟩
      have hsecond : 0 + 1 < info.numPbls := by
        have hfirst : info.firstPage = 1 := by rw [PblInfo.firstPage, hlayers]; rfl
        have heq := hshape.numPbls_eq
        have hentry := hshape.entryPages_pos
        omega
      have hone : [t.mem (t.va 0) + 1].length ≤ maxNumSg := by
        rw [length_singleton]
        omega
      obtain ⟨mr', hset, -, hkept⟩ := h _ hone
      have hchanged := FastMr.setPages_first ⟨info, t, 0⟩ hs hset
      have hsame := hkept hlayers 0 hsecond
      rw [Nat.add_zero, hchanged] at hsame
      exact absurd (BitVec.add_right_eq_self.1 hsame) (by decide)
    · have hone : info.twoLayered = false := by
        rw [Bool.eq_false_iff]
        exact fun hlayers => absurd hle (Nat.not_le.2 (htwo.1 hlayers).1)
      have hfill : addrs.length ≤ info.perPage * info.entryPages := by
        rw [hnum] at hroom
        exact hlen.trans hroom
      refine ⟨(⟨info, t, 0⟩ : FastMr).after addrs, ?_, hs.fwPbe_write hlinked hfill, ?_⟩
      · refine FastMr.setPages_after ⟨info, t, 0⟩ hs hone hroom (l := []) ?_
        rw [length_nil, Nat.zero_add, hnum]
        exact hlen
      · simp [hone]

/-- An MR for 8192 pages has a table of one layer. -/
theorem fast_registered_memory_described_one_layer :
    ∃ mr, qedrAllocMr (.backToBack 0x10000 0x10000) 8192 = .ok mr ∧
      ∃ mr', ({ mr with npages := 0 } : FastMr).setPages [0x5000, 0x9000] = .ok mr' ∧
        (List.range 2).map (mr'.tbl.fwPbe mr'.info) = [some 0x5000, some 0x9000] := by
  have halloc : qedrAllocMr (.backToBack 0x10000 0x10000) 8192 = .ok _ := rfl
  have henv : PblEnvOk (.backToBack 0x10000 0x10000) 0x10000 1 :=
    .backToBack (by decide) (by decide)
  refine ⟨_, halloc, ?_⟩
  obtain ⟨mr', hset, hread, -⟩ := (fast_registered_memory_described_iff (by decide) halloc henv).2
    (by decide) [0x5000, 0x9000] (by decide)
  exact ⟨mr', hset, hread⟩

/-- An MR for 8193 pages has a table of two layers: after one page, the device takes its address for
that of the first buffer. -/
theorem not_fast_registered_memory_described :
    ∃ mr mr', qedrAllocMr (.backToBack 0x10000 0x1000) 8193 = .ok mr ∧
      ({ mr with npages := 0 } : FastMr).setPages [0x5000] = .ok mr' ∧
      mr.info.twoLayered = true ∧ mr.tbl.mem (mr.tbl.va 0) = 0x12000 ∧
      mr'.tbl.mem (mr.tbl.va 0) = 0x5000 ∧ mr'.tbl.fwPbe mr'.info 0 = none := by
  refine ⟨_, _, rfl, rfl, rfl, ?_, ?_, ?_⟩
  all_goals decide +kernel

end FastLinQ.Qedr
