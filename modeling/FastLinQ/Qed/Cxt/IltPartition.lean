import FastLinQ.Qed.Cxt.PfParams

/-!
# The ILT layout is a partition

The line ranges of the active clients, with a copy of the blocks of the VFs for each VF, follow each
other without a gap from the first line of the function: `LaidAll` chains what is known of the
single clients. Then they are disjoint, `line_count` is their number, and the shadow table, which
`qed_ilt_shadow_alloc` fills from the same blocks, has one entry for each line that is written.

There is one gap that the code can leave. A device without SR-IOV has no VFs, and still the lines of
a first VF are counted, if contexts or tasks for VFs are asked for.
-/

namespace FastLinQ.Qed

open List Nat Word IltCli IltCliBlk TmIids

/-! ## What is asked for -/

/-- The line ranges of a client: blocks of the PF, and a copy of the blocks of the VFs for each VF.
-/
def clientRanges (hw : IltHw) (cli : IltClientCfg) : List (List ℕ) :=
  ((range ILT_CLI_PF_BLOCKS).map fun j => (cli.pfBlks j).lines 0) ++
    (range hw.vfCount).flatMap fun k =>
      (range ILT_CLI_VF_BLOCKS).map fun j => (cli.vfBlks j).lines (k * cli.vfTotalLines)

def iltRanges (hw : IltHw) (clients : IltCli → IltClientCfg) : List (List ℕ) :=
  (all.filter fun i => (clients i).active).flatMap fun i => clientRanges hw (clients i)

/-- The layout is a partition of `line_count` lines, and the shadow table has a place for each of
them. -/
structure IltLayout.Partition (hw : IltHw) (l : IltLayout) : Prop where
  disjoint : (iltRanges hw l.clients).Pairwise Disjoint
  inside : ∀ r ∈ iltRanges hw l.clients, ∀ x ∈ r,
    hw.pfStartLine ≤ x ∧ x < hw.pfStartLine + l.lineCount
  total : ((iltRanges hw l.clients).map length).sum = l.lineCount
  available : l.lineCount ≤ hw.rescNum
  once : ∀ rdma mem, ((qedIltShadowAlloc hw rdma l.clients mem).map ShadowWrite.line).Nodup
  inTable : ∀ rdma mem, ∀ w ∈ qedIltShadowAlloc hw rdma l.clients mem,
    w.line < qedCxtIltShadowSize l.clients

/-! ## The shadow entries of a block -/

/-- The entries follow each other, behind the lines that are skipped. -/
theorem iltBlkAllocLoop_of_lt {real skip first : ℕ} (lines : ℕ) {line : ℕ} (szLeft : ℕ)
    (hfirst : first < line) (hlt : line + lines < 2 ^ 32) :
    (iltBlkAllocLoop real skip first lines line szLeft).map ShadowWrite.line =
      range' line lines := by
  induction lines generalizing line szLeft with
  | zero => rfl
  | succ lines ih =>
    rw [iltBlkAllocLoop, if_neg (by omega), map_cons, mod_eq_of_lt (by omega),
      ih _ (by omega) (by omega), range'_succ]

/-- The entries of a block, from the first line that is not skipped. -/
theorem iltBlkAllocLoop_first {real skip : ℕ} (lines : ℕ) {line : ℕ} (szLeft : ℕ)
    (hlt : line + skip + lines < 2 ^ 32) :
    (iltBlkAllocLoop real skip line lines line szLeft).map ShadowWrite.line =
      range' (line + skip) lines := by
  cases lines with
  | zero => rfl
  | succ lines =>
    have hline :
        (if skip ≠ 0 ∧ line = line then (line + skip) % 2 ^ 32 else line) = line + skip := by
      split
      · exact mod_eq_of_lt (by omega)
      · omega
    rw [iltBlkAllocLoop, hline, map_cons, mod_eq_of_lt (by omega),
      iltBlkAllocLoop_of_lt _ _ (by omega) (by omega), range'_succ]

theorem range'_sublist (s : ℕ) {k n : ℕ} (hk : k ≤ n) :
    (range' (s + k) (n - k)).Sublist (range' s n) := by
  have hsplit : range' s n = range' s k ++ range' (s + k) (n - k) := by
    rw [range'_append_1, add_sub_of_le hk]
  rw [hsplit]
  exact sublist_append_right ..

variable {hw : IltHw} {blk : IltCliBlk} {d : ℕ}

theorem qedIltBlkAlloc_sublist (rdma : Bool) (i : IltCli) (hskips : blk.Skips)
    (hlow : blk.lineCnt ≠ 0 → hw.pfStartLine ≤ blk.startLine + d)
    (hhigh : blk.lineCnt ≠ 0 → blk.startLine + d + blk.lineCnt < 2 ^ 32) :
    ((qedIltBlkAlloc hw rdma i blk (d % 2 ^ 32)).map ShadowWrite.line).Sublist
      ((blk.lines d).map (· - hw.pfStartLine)) := by
  rw [qedIltBlkAlloc]
  split
  · exact nil_sublist _
  split
  · exact nil_sublist _
  rename_i h0
  obtain ⟨hoff, hdyn⟩ := hskips h0
  have hdiv : divRoundUp blk.totalSize blk.realSizeInPage = blk.lineCnt := (if_neg h0).symm
  by_cases hcnt : blk.lineCnt = 0
  · rw [hdiv, hcnt, show blk.dynamicLineCnt = 0 by omega]
    exact nil_sublist _
  have hlow := hlow hcnt
  have hline : Word.sub 32 ((blk.startLine + d % 2 ^ 32) % 2 ^ 32) hw.pfStartLine =
      blk.startLine + d - hw.pfStartLine := by
    rw [add_mod_mod, mod_eq_of_lt (by omega)]
    exact sub_of_le_of_lt hlow (by omega)
  have hlines : (blk.lines d).map (· - hw.pfStartLine) =
      range' (blk.startLine + d - hw.pfStartLine) blk.lineCnt :=
    map_sub_range' hlow _
  have hmod : (blk.startLine + d - hw.pfStartLine) % 2 ^ 32 = blk.startLine + d - hw.pfStartLine :=
    mod_eq_of_lt (by omega)
  simp only [hoff, hdiv, hline, add_zero, sub_of_le_of_lt hdyn (show _ < 2 ^ 32 by omega),
    hmod, hlines]
  rw [iltBlkAllocLoop_first _ _ (by omega)]
  exact range'_sublist _ hdyn

/-! ## The lines of a client -/

/-- The copies of a range for the VFs follow each other. -/
theorem flatMap_range'_mul (s v n : ℕ) :
    (range n).flatMap (fun k => range' (s + k * v) v) = range' s (n * v) := by
  induction n with
  | zero => simp
  | succ n ih =>
    rw [range_succ, flatMap_append, ih, flatMap_singleton, range'_append_1, succ_mul]

variable {cli : IltClientCfg} {st : Prop} {l₀ line a v : ℕ}

theorem clientRanges_flatten (hw : IltHw) (cli : IltClientCfg) :
    (clientRanges hw cli).flatten =
      ((range ILT_CLI_PF_BLOCKS).flatMap fun j => (cli.pfBlks j).lines 0) ++
        (range hw.vfCount).flatMap fun k =>
          (range ILT_CLI_VF_BLOCKS).flatMap fun j =>
            (cli.vfBlks j).lines (k * cli.vfTotalLines) := by
  simp [clientRanges, flatten_append, flatMap_def, flatten_flatten, map_map, Function.comp_def]

/-- The lines of a client are those of the PF and of the VFs that exist. -/
theorem ClientLaid.ranges (h : ClientLaid hw st cli l₀ line a v) :
    (clientRanges hw cli).flatten = range' l₀ (a + hw.vfCount * v) := by
  have hpf := h.pf.flat 0
  rw [Nat.add_zero, Nat.add_sub_cancel_left] at hpf
  have hvf : ∀ k, (range ILT_CLI_VF_BLOCKS).flatMap
      (fun j => (cli.vfBlks j).lines (k * cli.vfTotalLines)) = range' (l₀ + a + k * v) v := by
    intro k
    rw [h.vf.flat, Nat.add_sub_cancel_left]
    by_cases h0 : v = 0
    · rw [h0, range'_zero, range'_zero]
    · rw [h.vfTotal h0]
  rw [clientRanges_flatten, hpf]
  simp only [hvf]
  rw [flatMap_range'_mul, range'_append_1]

theorem ClientLaid.bounds (h : ClientLaid hw st cli l₀ line a v) (ha : a ≤ 2 ^ 20)
    (hv : v ≤ 2 ^ 18) : l₀ ≤ line ∧ line ≤ l₀ + 2 ^ 26 := by
  have heq := h.line_eq
  have hmul : max 1 hw.vfCount * v ≤ 192 * 2 ^ 18 :=
    Nat.mul_le_mul (max_le (by decide) hw.vfCount_le) hv
  omega

section Writes

variable (h : ClientLaid hw st cli l₀ line a v)
    (hpf : ∀ j < ILT_CLI_PF_BLOCKS, (cli.pfBlks j).Skips)
  (hvf : ∀ j < ILT_CLI_VF_BLOCKS, (cli.vfBlks j).Skips) (hl₀ : hw.pfStartLine ≤ l₀)
  (hlt : line < 2 ^ 32)

include h hpf hvf hl₀ hlt

theorem ClientLaid.writes (rdma : Bool) (i : IltCli) :
    ((clientWrites hw rdma i cli).map ShadowWrite.line).Sublist
      ((clientRanges hw cli).flatten.map (· - hw.pfStartLine)) := by
  have heq := h.line_eq
  rw [clientRanges_flatten, clientWrites, map_append, map_append]
  refine Sublist.append ?_ ?_
  · rw [map_flatMap, map_flatMap]
    refine Sublist.flatMap_right _ fun j hj => ?_
    have hj := mem_range.1 hj
    have hblk := h.pf.start j hj
    refine qedIltBlkAlloc_sublist (d := 0) rdma i (hpf j hj) (fun hne => ?_) fun hne => ?_
    · have := hblk fun h0 => hne (lineCnt_of_zero h0)
      omega
    · have := hblk fun h0 => hne (lineCnt_of_zero h0)
      omega
  · rw [map_flatMap, map_flatMap]
    refine Sublist.flatMap_right _ fun k hk => ?_
    rw [map_flatMap, map_flatMap]
    refine Sublist.flatMap_right _ fun j hj => ?_
    have hj := mem_range.1 hj
    -- a block with lines has `vf_total_lines` set for it
    have hblk : (cli.vfBlks j).lineCnt ≠ 0 → l₀ + a ≤ (cli.vfBlks j).startLine ∧
        (cli.vfBlks j).startLine + k * cli.vfTotalLines + (cli.vfBlks j).lineCnt ≤ line := by
      intro hne
      obtain ⟨hlow, hhigh⟩ := h.vf.start j hj fun h0 => hne (lineCnt_of_zero h0)
      rw [h.vfTotal (by omega)]
      have hmul : (k + 1) * v ≤ max 1 hw.vfCount * v :=
        mul_le_mul_right v (by have := mem_range.1 hk; omega)
      rw [succ_mul] at hmul
      omega
    rw [mul_comm cli.vfTotalLines]
    refine qedIltBlkAlloc_sublist rdma i (hvf j hj) (fun hne => ?_) fun hne => ?_
    · omega
    · omega

/-! ## All clients -/

def IltClientCfg.shadowLines (cli : IltClientCfg) : ℕ :=
  (Word.sub 32 cli.last cli.first + 1) % 2 ^ 32

/-- A client has `used` lines from `l₀` on, and the next client begins at `line`. -/
structure ClientOk (hw : IltHw) (i : IltCli) (cli : IltClientCfg) (l₀ line used : ℕ) : Prop where
  ranges : (clientRanges hw cli).flatten = range' l₀ used
  writes : ∀ rdma, ((clientWrites hw rdma i cli).map ShadowWrite.line).Sublist
    ((clientRanges hw cli).flatten.map (· - hw.pfStartLine))
  le : l₀ + used ≤ line
  idle : cli.active = false → line = l₀
  size : cli.active = true → line - l₀ ≤ cli.shadowLines ∧ cli.shadowLines ≤ 2 ^ 27

theorem ClientLaid.ok (hlines : line - l₀ ≤ 2 ^ 26) (i : IltCli) :
    ClientOk hw i cli l₀ line (a + hw.vfCount * v) := by
  have heq := h.line_eq
  have hmul : hw.vfCount * v ≤ max 1 hw.vfCount * v := mul_le_mul_right v (le_max_right ..)
  refine ⟨h.ranges, fun rdma => h.writes hpf hvf hl₀ hlt rdma i, by omega, h.spans.idle,
    fun hact => ?_⟩
  have hsize : cli.shadowLines = line - l₀ := by
    rw [IltClientCfg.shadowLines, h.spans.first hact, h.spans.last hact]
    simp only [Word.sub]
    omega
  omega

end Writes

theorem clientOk_empty (hpf : ∀ j < ILT_CLI_PF_BLOCKS, (cli.pfBlks j).totalSize = 0)
    (hvf : ∀ j < ILT_CLI_VF_BLOCKS, (cli.vfBlks j).totalSize = 0)
    (hsize : cli.active = true → cli.shadowLines ≤ 2 ^ 27) (i : IltCli) (line : ℕ) :
    ClientOk hw i cli line line 0 := by
  have hranges : (clientRanges hw cli).flatten = [] := by
    rw [clientRanges_flatten, append_eq_nil_iff, flatMap_eq_nil_iff, flatMap_eq_nil_iff]
    refine ⟨fun j hj => lines_of_zero (hpf j (mem_range.1 hj)) _, fun k _ => ?_⟩
    exact flatMap_eq_nil_iff.2 fun j hj =>
      lines_of_zero (hvf j (mem_range.1 hj)) _
  have hwrites : ∀ rdma, clientWrites hw rdma i cli = [] := by
    intro rdma
    have hnil :
        ∀ (blk : IltCliBlk) (d : ℕ), blk.totalSize = 0 → qedIltBlkAlloc hw rdma i blk d = [] := by
      intro blk d h0
      rw [qedIltBlkAlloc, if_pos h0, ite_self]
    rw [clientWrites, append_eq_nil_iff, flatMap_eq_nil_iff, flatMap_eq_nil_iff]
    refine ⟨fun j hj => hnil _ _ (hpf j (mem_range.1 hj)), fun k _ => ?_⟩
    exact flatMap_eq_nil_iff.2 fun j hj => hnil _ _ (hvf j (mem_range.1 hj))
  refine ⟨by rw [hranges, range'_zero], fun rdma => ?_, le_rfl, fun _ => rfl, fun hact => ?_⟩
  · rw [hwrites]
    exact nil_sublist _
  · exact ⟨by omega, hsize hact⟩

/-- The clients of a list, one after the other: they have `used` lines, and end at `line`. -/
inductive LaidAll (hw : IltHw) (clients : IltCli → IltClientCfg) : List IltCli → ℕ → ℕ → ℕ → Prop
  | nil (line : ℕ) : LaidAll hw clients [] line line 0
  | cons {i : IltCli} {is : List IltCli} {l₀ l₁ line used used' : ℕ} :
      ClientOk hw i (clients i) l₀ l₁ used → LaidAll hw clients is l₁ line used' →
      LaidAll hw clients (i :: is) l₀ line (used + used')

namespace LaidAll

variable {clients : IltCli → IltClientCfg} {is : List IltCli} {used : ℕ}

theorem le (h : LaidAll hw clients is l₀ line used) : l₀ + used ≤ line := by
  induction h with
  | nil => exact le_rfl
  | cons hcli _ ih =>
    have := hcli.le
    omega

theorem flatMap_filter {α : Type*} {f : IltCli → List α}
    (hf : ∀ i ∈ is, (clients i).active = false → f i = []) :
    (is.filter fun i => (clients i).active).flatMap f = is.flatMap f := by
  induction is with
  | nil => rfl
  | cons i is ih =>
    have ih := ih fun j hj => hf j (mem_cons_of_mem _ hj)
    cases hact : (clients i).active with
    | false =>
      rw [filter_cons_of_neg (by simp [hact]), ih, flatMap_cons,
        hf i mem_cons_self hact, nil_append]
    | true => rw [filter_cons_of_pos (by simp [hact]), flatMap_cons, flatMap_cons, ih]

section

variable (h : LaidAll hw clients is l₀ line used)

include h

theorem length_ranges :
    (is.flatMap fun i => (clientRanges hw (clients i)).flatten).length = used := by
  induction h with
  | nil => rfl
  | cons hcli _ ih =>
    rw [flatMap_cons, length_append, ih, hcli.ranges, length_range']

/-- Without a gap, the lines follow each other. -/
theorem ranges (hall : l₀ + used = line) :
    (is.flatMap fun i => (clientRanges hw (clients i)).flatten) = range' l₀ used := by
  induction h with
  | nil => rfl
  | cons hcli htail ih =>
    have hle := hcli.le
    have hle' := htail.le
    rw [flatMap_cons, hcli.ranges, ih (by omega), ← range'_append_1]
    congr 2
    omega

theorem writes (rdma : Bool) :
    ((is.flatMap fun i => clientWrites hw rdma i (clients i)).map ShadowWrite.line).Sublist
      ((is.flatMap fun i => (clientRanges hw (clients i)).flatten).map (· - hw.pfStartLine)) := by
  induction h with
  | nil => exact nil_sublist _
  | cons hcli _ ih =>
    rw [flatMap_cons, flatMap_cons, map_append, map_append]
    exact (hcli.writes rdma).append ih

theorem size :
    line - l₀ ≤ ((is.filter fun i => (clients i).active).map fun i => (clients i).shadowLines).sum ∧
      ((is.filter fun i => (clients i).active).map fun i => (clients i).shadowLines).sum ≤
        is.length * 2 ^ 27 := by
  induction h with
  | nil => simp
  | @cons i is l₀ l₁ line used used' hcli htail ih =>
    rw [length_cons]
    cases hact : (clients i).active with
    | false =>
      have := hcli.idle hact
      rw [filter_cons_of_neg (by simp [hact])]
      omega
    | true =>
      have := hcli.size hact
      rw [filter_cons_of_pos (by simp [hact]), map_cons, sum_cons]
      omega

theorem idle : ∀ i ∈ is, (clients i).active = false →
    (clientRanges hw (clients i)).flatten = [] ∧
      ∀ rdma, clientWrites hw rdma i (clients i) = [] := by
  induction h with
  | nil => nofun
  | cons hcli _ ih =>
    intro i hi hact
    rcases mem_cons.1 hi with rfl | hi
    · have hle := hcli.le
      have hidle := hcli.idle hact
      have hnil : (clientRanges hw (clients i)).flatten = [] := by
        rw [hcli.ranges, range'_eq_nil_iff]
        omega
      refine ⟨hnil, fun rdma => ?_⟩
      have := hcli.writes rdma
      rw [hnil, map_nil, sublist_nil, map_eq_nil_iff] at this
      exact this
    · exact ih i hi hact

end

end LaidAll

section Layout

variable {l : IltLayout} {used : ℕ}

theorem iltRanges_flatten (h : LaidAll hw l.clients all l₀ line used) :
    (iltRanges hw l.clients).flatten =
      all.flatMap fun i => (clientRanges hw (l.clients i)).flatten := by
  rw [← LaidAll.flatMap_filter fun i hi hact => (h.idle i hi hact).1]
  simp [iltRanges, flatMap_def, flatten_flatten, map_map, Function.comp_def]

/-- The layout is a partition exactly if it has no gap. -/
theorem partition_iff_of_laidAll (h : LaidAll hw l.clients all hw.pfStartLine line used)
    (hcount : l.lineCount = line - hw.pfStartLine) (hok : l.lineCount ≤ hw.rescNum) :
    l.Partition hw ↔ hw.pfStartLine + used = line := by
  have hle := h.le
  have hlength : ((iltRanges hw l.clients).map length).sum = used := by
    rw [← length_flatten, iltRanges_flatten h, h.length_ranges]
  constructor
  · intro hpart
    have := hpart.total
    omega
  · intro hall
    have hflat := (iltRanges_flatten h).trans (h.ranges hall)
    have hnodup := hflat ▸ nodup_range'
    -- the entries are among the lines, counted from the first one
    have hwrites : ∀ rdma mem, ((qedIltShadowAlloc hw rdma l.clients mem).map
        ShadowWrite.line).Sublist (range' 0 used) := by
      intro rdma mem
      have hsub := h.writes rdma
      rw [h.ranges hall, map_sub_range' le_rfl, Nat.sub_self] at hsub
      rw [qedIltShadowAlloc, LaidAll.flatMap_filter fun i hi hact => (h.idle i hi hact).2 rdma]
      exact ((take_sublist ..).map _).trans hsub
    refine ⟨(nodup_flatten.1 hnodup).2, fun r hr x hx => ?_, by omega, hok,
      fun rdma mem => (hwrites rdma mem).nodup nodup_range', fun rdma mem w hw' => ?_⟩
    · have hmem := mem_flatten.2 ⟨r, hr, hx⟩
      rw [hflat, mem_range'_1] at hmem
      omega
    · have hline := (hwrites rdma mem).subset (mem_map_of_mem hw')
      rw [mem_range'_1] at hline
      obtain ⟨hlow, hhigh⟩ := h.size
      have hsize : qedCxtIltShadowSize l.clients =
          ((all.filter fun i => (l.clients i).active).map fun i =>
            (l.clients i).shadowLines).sum % 2 ^ 32 := by
        rw [qedCxtIltShadowSize, sum_nat_mod, map_map]
        rfl
      rw [hsize, mod_eq_of_lt (hhigh.trans_lt (by decide))]
      omega

end Layout

/-! ## A computation -/

/-- What a computation finds: it goes on with what the last one left. -/
structure ClientsReady (hw : IltHw) (clients : IltCli → IltClientCfg) : Prop where
  page : ∀ i, (clients i).pSize = hw.iltPageSize
  static : ∀ i, i ≠ .cduc → (clients i).Static
  rgfs : (clients .rgfs).active = false
  tgfs : (clients .tgfs).active = false
  tsdm : (clients .tsdm).active = true → (clients .tsdm).shadowLines ≤ 2 ^ 27

theorem clientsReady_fresh (hw : IltHw) : ClientsReady hw hw.freshClients :=
  ⟨fun _ => rfl, fun _ _ => ⟨fun _ => ⟨rfl, rfl⟩, fun _ => ⟨rfl, rfl⟩⟩, rfl, rfl, nofun⟩

theorem ClientLaid.okStatic (h : ClientLaid hw True cli l₀ line a v) (hl₀ : hw.pfStartLine ≤ l₀)
    (hlt : l₀ + 2 ^ 26 < 2 ^ 32) (ha : a ≤ 2 ^ 20) (hv : v ≤ 2 ^ 18) (i : IltCli) :
    ClientOk hw i cli l₀ line (a + hw.vfCount * v) := by
  have hlines := h.bounds ha hv
  obtain ⟨hpf, hvf⟩ := h.static trivial
  exact h.ok (fun j _ => (hpf j).skips) (fun j _ => (hvf j).skips) hl₀ (by omega) (by omega) i

theorem tsdm_ok {req : IltReq} (hpage : cli.pSize = hw.iltPageSize) (hst : cli.Static)
    (hstale : cli.active = true → cli.shadowLines ≤ 2 ^ 27) (hl₀ : hw.pfStartLine ≤ l₀)
    (hlt : l₀ + 2 ^ 26 < 2 ^ 32) {s : IltClientCfg × ℕ}
    (hs : s = tsdmCompute hw req (eocreIltBlkReset cli) l₀) :
    s.1.pSize = hw.iltPageSize ∧ s.1.Static ∧ ∃ used ≤ 2 ^ 17,
      ClientOk hw .tsdm s.1 l₀ s.2 used ∧ s.2 = l₀ + used := by
  by_cases hsrq : qedCxtGetTotalSrqCount hw req = 0
  · rw [tsdmCompute, if_neg (not_not.2 hsrq)] at hs
    rw [hs]
    exact ⟨hpage, hst.reset, 0, zero_le _,
      clientOk_empty (fun _ => reset_pf) (fun _ => reset_vf) hstale _ _, rfl⟩
  · obtain ⟨a, ha, hlaid⟩ := tsdm_laid hpage (fun _ : True => hst)
      (show l₀ + 2 ^ 17 < 2 ^ 32 by omega) hsrq
    rw [← hs] at hlaid
    refine ⟨hlaid.page, hlaid.static trivial, a + hw.vfCount * 0, by omega,
      hlaid.okStatic hl₀ hlt (by omega) (zero_le _) _, ?_⟩
    have := hlaid.line_eq
    omega

def IltReq.NoVfs (req : IltReq) : Prop :=
  (∀ type < MAX_CONN_TYPES, (req.connCfg type).cidsPerVf = 0) ∧
    ∀ type < MAX_CONN_TYPES, (req.tidSeg type TASK_SEGMENT_VF).count = 0

variable {req : IltReq}

/-- The connections of a VF have lines if there are any. -/
theorem linesOf_cids_eq_zero_iff (hw : IltHw) (hreq : req.Requested) :
    linesOf hw.iltPageSize ((qedCxtCduIids req).2 * hw.connCxtSize % 2 ^ 32) hw.connCxtSize = 0 ↔
      ∀ type < MAX_CONN_TYPES, (req.connCfg type).cidsPerVf = 0 := by
  obtain ⟨hsum, hle⟩ := sumTypes_spec hreq.cidsPerVf
  have hcxt := hw.le_connCxtSize
  have hmul : (qedCxtCduIids req).2 * hw.connCxtSize ≤ 786432 * 4096 :=
    Nat.mul_le_mul hsum hw.connCxtSize_le
  constructor
  · intro hzero type htype
    by_contra hne
    have hpos : 0 < (qedCxtCduIids req).2 := lt_of_lt_of_le (by omega) (hle type htype)
    have := (elem_connCxt hw).linesOf_pos (mul_pos hpos (by omega) :
      0 < (qedCxtCduIids req).2 * hw.connCxtSize) (by omega)
    rw [mod_eq_of_lt (by omega)] at hzero
    omega
  · intro hnone
    have hzero : (qedCxtCduIids req).2 = 0 := by
      have hall : ∀ x ∈ (range MAX_CONN_TYPES).map fun type => (req.connCfg type).cidsPerVf,
          x = 0 := by
        intro x hx
        obtain ⟨type, htype, rfl⟩ := mem_map.1 hx
        exact hnone type (mem_range.1 htype)
      change sumTypes _ = 0
      rw [sumTypes, sum_eq_zero hall, zero_mod]
    rw [hzero, zero_mul, zero_mod, linesOf_zero]

theorem tidSegInfo_eq_none_iff :
    qedCxtTidSegInfo req TASK_SEGMENT_VF = none ↔
      ∀ type < MAX_CONN_TYPES, (req.tidSeg type TASK_SEGMENT_VF).count = 0 := by
  simp [qedCxtTidSegInfo]

/-- The tasks of a VF have lines if there are any. -/
theorem linesOf_tids_pos (hw : IltHw) (hreq : req.Requested) {seg : TidSeg}
    (hseg : qedCxtTidSegInfo req TASK_SEGMENT_VF = some seg) :
    0 < linesOf hw.iltPageSize (seg.count * hw.taskTypeSize seg.type % 2 ^ 32)
      (hw.taskTypeSize seg.type) := by
  have he := elem_task hw seg.type
  have hne : seg.count ≠ 0 := by simpa using find?_some hseg
  obtain ⟨type, -, rfl⟩ := mem_map.1 (mem_of_find?_eq_some hseg)
  have hmul := mul_le_mul (hreq.vfTids type) he.le
  rw [mod_eq_of_lt (by omega)]
  exact he.linesOf_pos (mul_pos (by omega) he.pos) (by omega)

/-- Without connections and tasks for VFs there are no timers for VFs. -/
theorem tmVfTotal_eq_zero (h : req.NoVfs) : tmVfTotal req = 0 := by
  have hloop : ∀ (l : List ℕ) (t : TmIids), (∀ i ∈ l, i < MAX_CONN_TYPES) →
      t.perVfCids = 0 ∧ t.perVfTids = 0 →
      (l.foldl (turn req) t).perVfCids = 0 ∧ (l.foldl (turn req) t).perVfTids = 0 := by
    intro l
    induction l with
    | nil => exact fun _ _ h => h
    | cons i l ih =>
      intro t hl ⟨hcids, htids⟩
      have hi := hl i mem_cons_self
      refine ih _ (fun j hj => hl j (mem_cons_of_mem _ hj)) ⟨?_, ?_⟩
      · simp [turn, hcids, h.1 i hi]
      · simp [turn, htids, h.2 i hi]
  obtain ⟨hcids, htids⟩ := hloop (range MAX_CONN_TYPES).reverse ⟨0, fun _ => 0, 0, 0, false, false⟩
    (by simp) ⟨rfl, rfl⟩
  rw [tmVfTotal, tmIidsLoop, hcids, htids]
  rfl

/-- The lines of a client have no gap exactly if it has no lines for VFs that are not there. -/
theorem ClientLaid.gap_iff (h : ClientLaid hw st cli l₀ line a v) :
    l₀ + (a + hw.vfCount * v) = line ↔ (hw.vfCount = 0 → v = 0) := by
  have heq := h.line_eq
  rcases Nat.eq_zero_or_pos hw.vfCount with h0 | hpos
  · rw [h0, max_eq_left (zero_le 1)] at heq
    rw [h0]
    omega
  · rw [max_eq_right hpos] at heq
    omega

/-- **A computation** lays out the clients one after the other, without a gap unless lines of VFs
are asked for and there are no VFs. -/
theorem compute_laid {clients : IltCli → IltClientCfg} (hready : ClientsReady hw clients)
    (hreq : req.Requested) {l : IltLayout} (hl : l = qedCxtCfgIltCompute hw req clients) :
    ClientsReady hw l.clients ∧ ∃ line used, LaidAll hw l.clients all hw.pfStartLine line used ∧
      l.lineCount = line - hw.pfStartLine ∧ l.ok = decide (l.lineCount ≤ hw.rescNum) ∧
      (hw.pfStartLine + used = line ↔ (hw.vfCount = 0 → req.NoVfs)) := by
  have hstart := hw.pfStartLine_le
  obtain ⟨cduc, hcduc⟩ : ∃ s, cducCompute hw req (eocreIltBlkReset (clients .cduc))
    hw.pfStartLine = s := ⟨_, rfl⟩
  obtain ⟨cdut, hcdut⟩ : ∃ s, cdutCompute hw req (eocreIltBlkReset (clients .cdut)) cduc.2 = s :=
    ⟨_, rfl⟩
  obtain ⟨qm, hqm⟩ : ∃ s, qmCompute hw req (eocreIltBlkReset (clients .qm)) cdut.2 = s := ⟨_, rfl⟩
  obtain ⟨tm, htm⟩ : ∃ s, tmCompute hw req (eocreIltBlkReset (clients .tm)) qm.2 = s := ⟨_, rfl⟩
  obtain ⟨src, hsrc⟩ : ∃ s, srcCompute hw req (eocreIltBlkReset (clients .src)) tm.2 = s := ⟨_, rfl⟩
  obtain ⟨tsdm, htsdm⟩ : ∃ s, tsdmCompute hw req (eocreIltBlkReset (clients .tsdm)) src.2 = s :=
    ⟨_, rfl⟩
  -- the clients one after the other
  obtain ⟨a₁, ha₁, hlaid₁, hpf, hvf⟩ := cduc_laid hreq (hready.page .cduc)
    (show hw.pfStartLine + 2 ^ 28 < 2 ^ 32 by omega)
  have hv₁ := (elem_connCxt hw).linesOf_le ((qedCxtCduIids req).2 * hw.connCxtSize % 2 ^ 32)
  have hzero₁ := linesOf_cids_eq_zero_iff hw hreq
  rw [hcduc] at hlaid₁ hpf hvf
  generalize linesOf hw.iltPageSize ((qedCxtCduIids req).2 * hw.connCxtSize % 2 ^ 32)
    hw.connCxtSize = v₁ at hlaid₁ hv₁ hzero₁
  have hle₁ := hlaid₁.bounds (by omega) (by omega)
  obtain ⟨a₂, ha₂, v₂, hv₂, hlaid₂, hnone₂, hsome₂⟩ := cdut_laid req
    (hready.page .cdut) (fun _ : True => hready.static .cdut nofun)
    (show cduc.2 + 2 ^ 28 < 2 ^ 32 by omega)
  rw [hcdut] at hlaid₂
  have hle₂ := hlaid₂.bounds ha₂ hv₂
  obtain ⟨a₃, ha₃, hlaid₃⟩ := qm_laid (hready.page .qm)
    (fun _ : True => hready.static .qm nofun) (show cdut.2 + 2 ^ 17 < 2 ^ 32 by omega) req
  rw [hqm] at hlaid₃
  have hle₃ := hlaid₃.bounds (by omega) (zero_le _)
  obtain ⟨a₄, ha₄, v₄, hv₄, hlaid₄, hnone₄⟩ := tm_laid (hready.page .tm)
    (fun _ : True => hready.static .tm nofun) req (show qm.2 + 2 ^ 28 < 2 ^ 32 by omega)
  rw [htm] at hlaid₄
  have hle₄ := hlaid₄.bounds (by omega) (by omega)
  obtain ⟨a₅, ha₅, hlaid₅⟩ := src_laid (hready.page .src)
    (fun _ : True => hready.static .src nofun) (show tm.2 + 2 ^ 17 < 2 ^ 32 by omega) req
  rw [hsrc] at hlaid₅
  have hle₅ := hlaid₅.bounds (by omega) (zero_le _)
  obtain ⟨hpage₆, hstatic₆, u₆, hu₆, hok₆, heq₆⟩ := tsdm_ok (hready.page .tsdm)
    (hready.static .tsdm nofun) hready.tsdm (show hw.pfStartLine ≤ src.2 by omega)
    (show src.2 + 2 ^ 26 < 2 ^ 32 by omega) htsdm.symm
  have hok₁ := hlaid₁.ok hpf hvf le_rfl (by omega) (by omega) .cduc
  have hok₂ := hlaid₂.okStatic (by omega) (by omega) ha₂ hv₂ .cdut
  have hok₃ := hlaid₃.okStatic (by omega) (by omega) (by omega) (zero_le _) .qm
  have hok₄ := hlaid₄.okStatic (by omega) (by omega) (by omega) (by omega) .tm
  have hok₅ := hlaid₅.okStatic (by omega) (by omega) (by omega) (zero_le _) .src
  subst hl
  simp only [qedCxtCfgIltCompute, hcduc, hcdut, hqm, htm, hsrc, htsdm]
  refine ⟨⟨fun i => ?_, fun i hi => ?_, hready.rgfs, hready.tgfs, fun hact => (hok₆.size hact).2⟩,
    tsdm.2, _, .cons hok₁ (.cons hok₂ (.cons hok₃ (.cons hok₄ (.cons hok₅ (.cons hok₆
      (.cons (clientOk_empty (fun _ => reset_pf) (fun _ => reset_vf) ?_ _ _)
      (.cons (clientOk_empty (fun _ => reset_pf) (fun _ => reset_vf) ?_ _ _) (.nil _)))))))),
    sub_of_le_of_lt (by omega) (by omega), trivial, ?_⟩
  · cases i with
    | cduc => exact hlaid₁.page
    | cdut => exact hlaid₂.page
    | qm => exact hlaid₃.page
    | tm => exact hlaid₄.page
    | src => exact hlaid₅.page
    | tsdm => exact hpage₆
    | rgfs => exact hready.page .rgfs
    | tgfs => exact hready.page .tgfs
  · cases i with
    | cduc => exact absurd rfl hi
    | cdut => exact hlaid₂.static trivial
    | qm => exact hlaid₃.static trivial
    | tm => exact hlaid₄.static trivial
    | src => exact hlaid₅.static trivial
    | tsdm => exact hstatic₆
    | rgfs => exact (hready.static .rgfs nofun).reset
    | tgfs => exact (hready.static .tgfs nofun).reset
  · exact fun hact => absurd (hready.rgfs.symm.trans hact) nofun
  · exact fun hact => absurd (hready.tgfs.symm.trans hact) nofun
  · have := hok₁.le
    have := hok₂.le
    have := hok₃.le
    have := hok₄.le
    have := hok₅.le
    have hgap₁ := hlaid₁.gap_iff
    have hgap₂ := hlaid₂.gap_iff
    have hgap₃ := hlaid₃.gap_iff
    have hgap₄ := hlaid₄.gap_iff
    have hgap₅ := hlaid₅.gap_iff
    constructor
    · intro hall h0
      refine ⟨hzero₁.1 (hgap₁.1 (by omega) h0), tidSegInfo_eq_none_iff.1 ?_⟩
      cases hseg : qedCxtTidSegInfo req TASK_SEGMENT_VF with
      | none => rfl
      | some seg =>
        have := linesOf_tids_pos hw hreq hseg
        have := hsome₂ seg hseg
        have := hgap₂.1 (by omega) h0
        omega
    · intro hno
      have hgap₁ := hgap₁.2 fun h0 => hzero₁.2 (hno h0).1
      have hgap₂ := hgap₂.2 fun h0 => hnone₂ (tidSegInfo_eq_none_iff.2 (hno h0).2)
      have hgap₃ := hgap₃.2 fun _ => rfl
      have hgap₄ := hgap₄.2 fun h0 => hnone₄ (tmVfTotal_eq_zero (hno h0))
      have hgap₅ := hgap₅.2 fun _ => rfl
      omega

def IltHw.clientsAfter (hw : IltHw) (reqs : List IltReq) : IltCli → IltClientCfg :=
  reqs.foldl (fun clients req => (qedCxtCfgIltCompute hw req clients).clients) hw.freshClients

theorem clientsReady_after (hw : IltHw) (reqs : List IltReq) (hreqs : ∀ req ∈ reqs, req.Requested) :
    ClientsReady hw (hw.clientsAfter reqs) := by
  induction reqs using reverseRecOn with
  | nil => exact clientsReady_fresh hw
  | append_singleton reqs req ih =>
    have ih := ih fun r hr => hreqs r (mem_append_left _ hr)
    rw [IltHw.clientsAfter, foldl_append]
    exact (compute_laid ih (hreqs req (by simp)) rfl).1

/-- **The ILT layout is a partition** of the lines of the function, and the shadow table has one
place for each line that is written, exactly if nothing is asked for VFs on a device that has none.
-/
theorem ilt_partition_iff (hw : IltHw) (before : List IltReq) (req : IltReq)
    (hbefore : ∀ r ∈ before, r.Requested) (hreq : req.Requested)
    (hok : (qedCxtCfgIltCompute hw req (hw.clientsAfter before)).ok = true) :
    (qedCxtCfgIltCompute hw req (hw.clientsAfter before)).Partition hw ↔
      (hw.vfCount = 0 → req.NoVfs) := by
  obtain ⟨-, line, used, hlaid, hcount, hres, hgap⟩ :=
    compute_laid (clientsReady_after hw before hbefore) hreq rfl
  rw [hres, decide_eq_true_iff] at hok
  exact (partition_iff_of_laidAll hlaid hcount hok).trans hgap

/-! ## An Ethernet function -/

/-- A function with 500 lines of 128 KB and some VFs. -/
def smallHw (vfs : Fin 17) : IltHw where
  pfStartLine := 100
  rescNum := 500
  rescNumPq := 64
  vfCount := vfs
  iltPageSize := 5
  connCxtSize := 2048
  taskTypeSize := fun _ => 512
  srqCxtSize := 64
  pvrdma := false
  pfStartLine_le := by decide
  vfCount_le := by omega
  le_iltPageSize := by decide
  iltPageSize_le := by decide
  le_connCxtSize := by decide
  connCxtSize_le := by decide
  taskTypeSize_pos := fun _ => by decide
  taskTypeSize_le := fun _ => by decide
  srqCxtSize_pos := by decide
  srqCxtSize_le := by decide

/-- The parameters of an Ethernet driver that says nothing about VFs. -/
def ethParams : PfParams :=
  ⟨.eth, false, false, false, true, false, .default, 0, 0, 0, 0, 0, 64, 0, 0, 0, 0, 0, 0⟩

/-- The request of that driver: 32 connections for each VF, by default. -/
def ethReq (vfs : Fin 17) : IltReq :=
  (qedCxtSetPfParams (smallHw vfs) ethParams RDMA_MAX_TIDS
    ⟨fun _ => ⟨0, 0⟩, fun _ _ => ⟨0, 0, false⟩, 0, 0, 0, 0, 20, 4, 0, false⟩).get (by rfl)

theorem ethReq_requested (vfs : Fin 17) : (ethReq vfs).Requested :=
  requested_setPfParams
    ⟨fun _ => zero_le _, fun _ => zero_le _, fun _ => zero_le _⟩
    (Option.some_get _).symm

/-- With VFs the layout is a partition. -/
theorem ilt_partition_two_vfs :
    (qedCxtCfgIltCompute (smallHw 2) (ethReq 2) ((smallHw 2).clientsAfter [])).Partition
      (smallHw 2) :=
  (ilt_partition_iff (smallHw 2) [] (ethReq 2) nofun (ethReq_requested 2) (by decide +kernel)).2
    fun h => absurd h (by decide)

/-- Without VFs a line is counted that no block has. -/
theorem not_ilt_partition_no_vfs :
    (ethReq 0).Requested ∧
      (qedCxtCfgIltCompute (smallHw 0) (ethReq 0) (smallHw 0).freshClients).ok = true ∧
      ¬ (qedCxtCfgIltCompute (smallHw 0) (ethReq 0) (smallHw 0).freshClients).Partition
        (smallHw 0) := by
  refine ⟨ethReq_requested 0, by decide +kernel, fun h => ?_⟩
  have hne : ((iltRanges (smallHw 0) (qedCxtCfgIltCompute (smallHw 0) (ethReq 0)
      (smallHw 0).freshClients).clients).map length).sum ≠
      (qedCxtCfgIltCompute (smallHw 0) (ethReq 0) (smallHw 0).freshClients).lineCount := by
    decide +kernel
  exact hne h.total

end FastLinQ.Qed
