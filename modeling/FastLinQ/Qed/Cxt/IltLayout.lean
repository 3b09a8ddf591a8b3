import FastLinQ.Qed.Cxt.Ilt

/-!
# The lines of the ILT clients

`qed_cxt_cfg_ilt_compute` goes through the clients with one current line. `ClientLaid` says what it
makes of one of them: the blocks of the PF follow each other from the line at which the client
begins, then those of one VF, and the line at which the client ends is behind the copies for all
other VFs. The client's `first` and `last` are these lines.

The current line never wraps around: a block has at most `2 ^ 17` lines, because its size is a `u32`
and a page holds at least `2 ^ 15` bytes of it.
-/

namespace FastLinQ.Qed

open Function List Nat IltCliBlk IltClientCfg

/-! ## Blocks -/

def IltCliBlk.lineCnt (blk : IltCliBlk) : ℕ :=
  if blk.totalSize = 0 then 0 else divRoundUp blk.totalSize blk.realSizeInPage

def IltCliBlk.lines (blk : IltCliBlk) (offset : ℕ) : List ℕ :=
  range' (blk.startLine + offset) blk.lineCnt

/-- The number of lines that a block of this size gets. -/
def linesOf (pSize total elem : ℕ) : ℕ :=
  if total = 0 then 0 else divRoundUp total (iltPageInBytes pSize / elem * elem)

/-- What is known of the sizes when a block is placed. -/
structure IltHw.Elem (hw : IltHw) (elem : ℕ) : Prop where
  pos : 0 < elem
  le : elem ≤ 4096

variable {hw : IltHw} {elem total : ℕ}

/-- At least half of a page is used. -/
theorem IltHw.Elem.real (he : hw.Elem elem) :
    2 ^ 15 ≤ iltPageInBytes hw.iltPageSize / elem * elem ∧
      iltPageInBytes hw.iltPageSize / elem * elem ≤ 2 ^ 22 := by
  have hpos := he.pos
  have hle := he.le
  have hlow : 2 ^ 16 ≤ iltPageInBytes hw.iltPageSize := by
    exact Nat.pow_le_pow_right (by decide) (by have := hw.le_iltPageSize; omega)
  have hhigh : iltPageInBytes hw.iltPageSize ≤ 2 ^ 22 := by
    exact Nat.pow_le_pow_right (by decide) (by have := hw.iltPageSize_le; omega)
  have hmod := mod_lt (iltPageInBytes hw.iltPageSize) hpos
  have hdiv := div_add_mod' (iltPageInBytes hw.iltPageSize) elem
  omega

theorem IltHw.Elem.linesOf_le (he : hw.Elem elem) (total : ℕ) :
    linesOf hw.iltPageSize total elem ≤ 2 ^ 17 := by
  obtain ⟨hlow, -⟩ := he.real
  rw [linesOf]
  split
  · exact zero_le _
  · refine Nat.div_le_of_le_mul ?_
    calc (total + iltPageInBytes hw.iltPageSize / elem * elem - 1) % 2 ^ 32 ≤ 2 ^ 15 * 2 ^ 17 := by
          omega
      _ ≤ iltPageInBytes hw.iltPageSize / elem * elem * 2 ^ 17 := Nat.mul_le_mul_right _ hlow

/-- A block that is not too large has lines. -/
theorem IltHw.Elem.linesOf_pos (he : hw.Elem elem) (hpos : 0 < total)
    (hlt : total < 2 ^ 32 - 2 ^ 22) :
    0 < linesOf hw.iltPageSize total elem := by
  obtain ⟨hlow, hhigh⟩ := he.real
  rw [linesOf, if_neg (by omega), divRoundUp]
  exact div_pos (by omega) (by omega)

@[simp] theorem linesOf_zero (pSize elem : ℕ) : linesOf pSize 0 elem = 0 := rfl

variable {blk : IltCliBlk}

theorem IltCliBlk.lineCnt_of_zero (h : blk.totalSize = 0) : blk.lineCnt = 0 := if_pos h

theorem IltCliBlk.lines_of_zero (h : blk.totalSize = 0) (offset : ℕ) : blk.lines offset = [] := by
  rw [lines, lineCnt_of_zero h, range'_zero]

theorem fill_setBlk (pSize : ℕ) (blk : IltCliBlk) (startLine total elem : ℕ) :
    qedIltCliBlkFill pSize (qedCxtSetBlk blk) startLine total elem =
      { blk with
        totalSize := total
        realSizeInPage := if elem ≠ 0 then iltPageInBytes pSize / elem * elem else 0
        startLine := startLine } := by
  rfl

/-- A block that is filled for elements of the right size. -/
structure IltCliBlk.Filled (hw : IltHw) (blk : IltCliBlk) (line total elem : ℕ) : Prop where
  size : blk.totalSize = total
  start : blk.startLine = line
  real : blk.realSizeInPage ≠ 0
  cnt : blk.lineCnt = linesOf hw.iltPageSize total elem

theorem IltHw.Elem.filled (he : hw.Elem elem) {pSize : ℕ} (hpage : pSize = hw.iltPageSize)
    (blk : IltCliBlk) (line total : ℕ) :
    (qedIltCliBlkFill pSize (qedCxtSetBlk blk) line total elem).Filled hw line total elem := by
  obtain ⟨hreal, -⟩ := he.real
  rw [fill_setBlk, if_pos he.pos.ne', hpage]
  refine ⟨rfl, rfl, ?_, rfl⟩
  dsimp only
  omega

/-- What `qed_ilt_cli_adv_line` does not change. -/
structure SameBlks (cli cli' : IltClientCfg) : Prop where
  page : cli'.pSize = cli.pSize
  pf : cli'.pfBlks = cli.pfBlks
  vf : cli'.vfBlks = cli.vfBlks
  pfTotal : cli'.pfTotalLines = cli.pfTotalLines
  vfTotal : cli'.vfTotalLines = cli.vfTotalLines

theorem SameBlks.trans {c₁ c₂ c₃ : IltClientCfg} (h : SameBlks c₁ c₂) (h' : SameBlks c₂ c₃) :
    SameBlks c₁ c₃ :=
  ⟨h'.page.trans h.page, h'.pf.trans h.pf, h'.vf.trans h.vf, h'.pfTotal.trans h.pfTotal,
    h'.vfTotal.trans h.vfTotal⟩

theorem sameBlks_advLine (blk : IltCliBlk) (s : IltClientCfg × ℕ) :
    SameBlks s.1 (qedIltCliAdvLine blk s).1 := by
  rw [qedIltCliAdvLine]
  split <;> exact ⟨rfl, rfl, rfl, rfl, rfl⟩

theorem advLine_snd {s : IltClientCfg × ℕ} (hreal : blk.totalSize ≠ 0 → blk.realSizeInPage ≠ 0)
    (hlt : s.2 + blk.lineCnt < 2 ^ 32) : (qedIltCliAdvLine blk s).2 = s.2 + blk.lineCnt := by
  rw [lineCnt] at hlt ⊢
  rw [qedIltCliAdvLine]
  by_cases h0 : blk.totalSize = 0
  · rw [if_pos (.inl h0), if_pos h0, add_zero]
  · rw [if_neg h0] at hlt ⊢
    rw [if_neg (by simp [h0, hreal h0])]
    exact mod_eq_of_lt hlt

/-! ## The lines of a client so far -/

/-- The lines from `l₀` to `line` belong to the client. -/
structure Spans (cli : IltClientCfg) (l₀ line : ℕ) : Prop where
  le : l₀ ≤ line
  idle : cli.active = false → line = l₀
  first : cli.active = true → cli.first = l₀
  last : cli.active = true → cli.last = Word.sub 32 line 1

theorem Spans.advLine {s : IltClientCfg × ℕ} {l₀ : ℕ} (h : Spans s.1 l₀ s.2)
    (hreal : blk.totalSize ≠ 0 → blk.realSizeInPage ≠ 0) (hlt : s.2 + blk.lineCnt < 2 ^ 32) :
    Spans (qedIltCliAdvLine blk s).1 l₀ (qedIltCliAdvLine blk s).2 := by
  have hle := h.le
  have hsnd := advLine_snd hreal hlt
  by_cases h0 : blk.totalSize = 0
  · rw [qedIltCliAdvLine, if_pos (.inl h0)]
    exact h
  · have hcond : ¬ (blk.totalSize = 0 ∨ blk.realSizeInPage = 0) := by simp [h0, hreal h0]
    refine ⟨by rw [hsnd]; omega, fun hidle => ?_, fun _ => ?_, fun _ => ?_⟩
    · rw [qedIltCliAdvLine, if_neg hcond] at hidle
      cases hidle
    · rw [qedIltCliAdvLine, if_neg hcond]
      split
      · rename_i hact
        exact h.first hact
      · rename_i hact
        exact h.idle (by simpa using hact)
    · rw [qedIltCliAdvLine, if_neg hcond]

/-- The first `j` of `n` blocks take the lines from `l₀` to `line`; the others are not filled. -/
structure UpTo (blks : ℕ → IltCliBlk) (n j l₀ line : ℕ) : Prop where
  flat : ∀ d, (range j).flatMap (fun i => (blks i).lines d) = range' (l₀ + d) (line - l₀)
  le : l₀ ≤ line
  start : ∀ i < j, (blks i).totalSize ≠ 0 → l₀ ≤ (blks i).startLine ∧
    (blks i).startLine + (blks i).lineCnt ≤ line
  rest : ∀ i, j ≤ i → i < n → (blks i).totalSize = 0

variable {blks blks' : ℕ → IltCliBlk} {n j l₀ line : ℕ}

theorem UpTo.zero (h : ∀ i < n, (blks i).totalSize = 0) (l₀ : ℕ) : UpTo blks n 0 l₀ l₀ := by
  refine ⟨fun d => ?_, le_rfl, nofun, fun i _ hi => h i hi⟩
  rw [range_zero, flatMap_nil, Nat.sub_self, range'_zero]

section

variable (h : UpTo blks n j l₀ line)

include h

theorem UpTo.place (blks' : ℕ → IltCliBlk) (hlow : ∀ i < j, blks' i = blks i)
    (hhigh : ∀ i, j < i → blks' i = blks i)
    (hstart : (blks' j).totalSize ≠ 0 → (blks' j).startLine = line) :
    UpTo blks' n (j + 1) l₀ (line + (blks' j).lineCnt) := by
  have hle := h.le
  refine ⟨fun d => ?_, hle.trans (Nat.le_add_right ..), fun i hi hne => ?_, fun i hi hn => ?_⟩
  · have hold : (range j).flatMap (fun i => (blks' i).lines d) =
        (range j).flatMap fun i => (blks i).lines d :=
      flatMap_congr fun i hi => by rw [hlow i (mem_range.1 hi)]
    rw [range_succ, flatMap_append, hold, h.flat d, flatMap_singleton]
    by_cases h0 : (blks' j).totalSize = 0
    · rw [lines_of_zero h0, lineCnt, if_pos h0, append_nil, add_zero]
    · rw [lines, hstart h0, show line + d = l₀ + d + (line - l₀) by omega, range'_append_1]
      congr 1
      omega
  · rcases Nat.lt_succ_iff_lt_or_eq.1 hi with hi | rfl
    · rw [hlow i hi] at hne ⊢
      have := h.start i hi hne
      omega
    · omega
  · rw [hhigh i (by omega)]
    exact h.rest i (by omega) hn

theorem UpTo.set (hstart : blk.totalSize ≠ 0 → blk.startLine = line) :
    UpTo (update blks j blk) n (j + 1) l₀ (line + blk.lineCnt) := by
  have hself : update blks j blk j = blk := update_self ..
  have hplace := h.place (update blks j blk) (fun i hi => update_of_ne (by omega) ..)
    (fun i hi => update_of_ne (by omega) ..) (by rwa [hself])
  rwa [hself] at hplace

theorem UpTo.filled (hblk : blk.Filled hw line total elem) :
    UpTo (update blks j blk) n (j + 1) l₀ (line + linesOf hw.iltPageSize total elem) := by
  rw [← hblk.cnt]
  exact h.set fun _ => hblk.start

theorem UpTo.empty (hblk : blk.totalSize = 0) :
    UpTo (update blks j blk) n (j + 1) l₀ line := by
  have hset := h.set fun hne => absurd hblk hne
  rwa [lineCnt, if_pos hblk] at hset

theorem UpTo.skip (hj : j < n) : UpTo blks n (j + 1) l₀ line := by
  have h0 := h.rest j le_rfl hj
  have hstep := h.place blks (fun _ _ => rfl) (fun _ _ => rfl) (fun hne => absurd h0 hne)
  rwa [lineCnt, if_pos h0] at hstep

theorem UpTo.skipAll (hj : j ≤ n) : UpTo blks n n l₀ line := by
  induction hj using decreasingInduction with
  | self => exact h
  | of_succ k hk ih => exact ih (h.skip hk)

/-! ## Placing the blocks of a client -/

end

/-- A block has no lines that are allocated later. -/
def IltCliBlk.Static (blk : IltCliBlk) : Prop := blk.dynamicLineOffset = 0 ∧ blk.dynamicLineCnt = 0

/-- No block of the client has lines that are allocated later. -/
def IltClientCfg.Static (cli : IltClientCfg) : Prop :=
  (∀ j, (cli.pfBlks j).Static) ∧ ∀ j, (cli.vfBlks j).Static

/-- The first `j` blocks of the PF are placed from `l₀` on. -/
structure PfPhase (hw : IltHw) (st : Prop) (s : IltClientCfg × ℕ) (j l₀ : ℕ) : Prop where
  page : s.1.pSize = hw.iltPageSize
  spans : Spans s.1 l₀ s.2
  pf : UpTo s.1.pfBlks ILT_CLI_PF_BLOCKS j l₀ s.2
  vf : ∀ i < ILT_CLI_VF_BLOCKS, (s.1.vfBlks i).totalSize = 0
  static : st → s.1.Static

/-- The blocks of the PF are placed from `l₀` to `l₁`, and the first `j` blocks of the VFs behind
them. -/
structure VfPhase (hw : IltHw) (st : Prop) (s : IltClientCfg × ℕ) (j l₀ l₁ : ℕ) : Prop where
  page : s.1.pSize = hw.iltPageSize
  spans : Spans s.1 l₀ s.2
  pf : UpTo s.1.pfBlks ILT_CLI_PF_BLOCKS ILT_CLI_PF_BLOCKS l₀ l₁
  vf : UpTo s.1.vfBlks ILT_CLI_VF_BLOCKS j l₁ s.2
  static : st → s.1.Static

variable {st : Prop} {s : IltClientCfg × ℕ} {l₁ : ℕ}

theorem PfPhase.skip (h : PfPhase hw st s j l₀) (hj : j < ILT_CLI_PF_BLOCKS) :
    PfPhase hw st s (j + 1) l₀ :=
  { h with pf := h.pf.skip hj }

theorem PfPhase.done (h : PfPhase hw st s j l₀) (hj : j ≤ ILT_CLI_PF_BLOCKS) :
    VfPhase hw st s 0 l₀ s.2 :=
  ⟨h.page, h.spans, h.pf.skipAll hj, .zero h.vf _, h.static⟩

theorem VfPhase.skip (h : VfPhase hw st s j l₀ l₁) (hj : j < ILT_CLI_VF_BLOCKS) :
    VfPhase hw st s (j + 1) l₀ l₁ :=
  { h with vf := h.vf.skip hj }

theorem IltCliBlk.Static.fill (h : blk.Static) (pSize line total elem : ℕ) :
    (qedIltCliBlkFill pSize (qedCxtSetBlk blk) line total elem).Static := by
  exact h

variable {cli : IltClientCfg}

theorem IltClientCfg.Static.fillPf (h : cli.Static) (j line total elem : ℕ) :
    (cli.fillPf j line total elem).Static :=
  ⟨(forall_update_iff _ fun _ (b : IltCliBlk) => b.Static).2
    ⟨(h.1 j).fill .., fun i _ => h.1 i⟩, h.2⟩

theorem IltClientCfg.Static.fillVf (h : cli.Static) (j line total elem : ℕ) :
    (cli.fillVf j line total elem).Static :=
  ⟨h.1, (forall_update_iff _ fun _ (b : IltCliBlk) => b.Static).2
    ⟨(h.2 j).fill .., fun i _ => h.2 i⟩⟩

theorem IltClientCfg.Static.of_same {cli cli' : IltClientCfg} (h : cli.Static)
    (hsame : SameBlks cli cli') : cli'.Static := by
  rw [Static, hsame.pf, hsame.vf]
  exact h

theorem PfPhase.empty (h : PfPhase hw st s j l₀) (startLine : ℕ) :
    PfPhase hw st (s.1.fillPf j startLine 0 0, s.2) (j + 1) l₀ := by
  refine { h with
    spans := { h.spans with }, pf := h.pf.empty ?_, static := fun hst => (h.static hst).fillPf .. }
  rw [fill_setBlk]

theorem advLine_filled (he : hw.Elem elem) (hspans : Spans s.1 l₀ s.2) (hlt : s.2 + 2 ^ 17 < 2 ^ 32)
    (hblk : blk.Filled hw s.2 total elem) :
    Spans (qedIltCliAdvLine blk s).1 l₀ (qedIltCliAdvLine blk s).2 ∧
      (qedIltCliAdvLine blk s).2 = s.2 + linesOf hw.iltPageSize total elem := by
  have hcnt := he.linesOf_le total
  rw [← hblk.cnt] at hcnt ⊢
  exact ⟨hspans.advLine (fun _ => hblk.real) (by omega),
    advLine_snd (fun _ => hblk.real) (by omega)⟩

/-- The next block of the PF or of the VFs is filled, and the current line goes behind it. -/
structure Placed (hw : IltHw) (s s' : IltClientCfg × ℕ) (blks : ℕ → IltCliBlk)
    (l₀ l₁ n j total elem : ℕ) : Prop where
  same : SameBlks s.1 s'.1
  spans : Spans s'.1 l₀ s'.2
  line : s'.2 = s.2 + linesOf hw.iltPageSize total elem
  filled : (blks j).Filled hw s.2 total elem
  upTo : UpTo blks n (j + 1) l₁ s'.2

/-- `s` is the client with the block filled, and `blks` are the blocks among which it is. -/
theorem placed_advLine (hup : UpTo blks n j l₁ s.2) (he : hw.Elem elem)
    (hpage : s.1.pSize = hw.iltPageSize) (hspans : Spans s.1 l₀ s.2) (hlt : s.2 + 2 ^ 17 < 2 ^ 32)
    (total : ℕ)
    (hblks : blks' = update blks j
      (qedIltCliBlkFill s.1.pSize (qedCxtSetBlk (blks j)) s.2 total elem)) :
    Placed hw s (qedIltCliAdvLine (blks' j) s) blks' l₀ l₁ n j total elem := by
  have hblk := he.filled hpage (blks j) s.2 total
  have hself : blks' j = _ := (congrFun hblks j).trans (update_self ..)
  rw [← hself] at hblk hblks
  obtain ⟨hspans', hsnd⟩ := advLine_filled he hspans hlt hblk
  refine ⟨sameBlks_advLine _ s, hspans', hsnd, hblk, ?_⟩
  rw [hsnd, hblks]
  exact hup.filled hblk

theorem PfPhase.place (h : PfPhase hw st s j l₀) (he : hw.Elem elem) (hlt : s.2 + 2 ^ 17 < 2 ^ 32)
    (total : ℕ) :
    PfPhase hw st (placePf j total elem s) (j + 1) l₀ ∧
      (placePf j total elem s).2 = s.2 + linesOf hw.iltPageSize total elem ∧
      ((placePf j total elem s).1.pfBlks j).Filled hw s.2 total elem := by
  have hp := placed_advLine (s := (s.1.fillPf j s.2 total elem, s.2)) h.pf he h.page
    { h.spans with } hlt total rfl
  refine ⟨⟨hp.same.page.trans h.page, hp.spans, hp.same.pf ▸ hp.upTo, ?_, ?_⟩, hp.line,
    (congrFun hp.same.pf j) ▸ hp.filled⟩
  · exact fun i hi => (congrArg totalSize (congrFun hp.same.vf i)).trans (h.vf i hi)
  · exact fun hst => ((h.static hst).fillPf ..).of_same hp.same

theorem VfPhase.empty (h : VfPhase hw st s j l₀ l₁) (startLine : ℕ) :
    VfPhase hw st (s.1.fillVf j startLine 0 0, s.2) (j + 1) l₀ l₁ := by
  refine { h with
    spans := { h.spans with }, vf := h.vf.empty ?_, static := fun hst => (h.static hst).fillVf .. }
  rw [fill_setBlk]

theorem VfPhase.place (h : VfPhase hw st s j l₀ l₁) (he : hw.Elem elem)
    (hlt : s.2 + 2 ^ 17 < 2 ^ 32) (total : ℕ) :
    VfPhase hw st (placeVf j total elem s) (j + 1) l₀ l₁ ∧
      (placeVf j total elem s).2 = s.2 + linesOf hw.iltPageSize total elem ∧
      ((placeVf j total elem s).1.vfBlks j).Filled hw s.2 total elem := by
  have hp := placed_advLine (s := (s.1.fillVf j s.2 total elem, s.2)) h.vf he h.page
    { h.spans with } hlt total rfl
  exact ⟨⟨hp.same.page.trans h.page, hp.spans, hp.same.pf ▸ h.pf, hp.same.vf ▸ hp.upTo,
    fun hst => ((h.static hst).fillVf ..).of_same hp.same⟩, hp.line,
    (congrFun hp.same.vf j) ▸ hp.filled⟩

/-! ## All blocks of a client -/

/-- A client is laid out from `l₀` to `line`: `a` lines of the PF, and `v` lines for each VF, or
once if there is none. -/
structure ClientLaid (hw : IltHw) (st : Prop) (cli : IltClientCfg) (l₀ line a v : ℕ) : Prop where
  page : cli.pSize = hw.iltPageSize
  spans : Spans cli l₀ line
  line_eq : line = l₀ + a + max 1 hw.vfCount * v
  pf : UpTo cli.pfBlks ILT_CLI_PF_BLOCKS ILT_CLI_PF_BLOCKS l₀ (l₀ + a)
  vf : UpTo cli.vfBlks ILT_CLI_VF_BLOCKS ILT_CLI_VF_BLOCKS (l₀ + a) (l₀ + a + v)
  vfTotal : v ≠ 0 → cli.vfTotalLines = v
  static : st → cli.Static

theorem reset_pf {j : ℕ} (hj : j < ILT_CLI_PF_BLOCKS) :
    ((eocreIltBlkReset cli).pfBlks j).totalSize = 0 := by
  simp [eocreIltBlkReset, if_pos hj, qedCxtSetBlk]

theorem reset_vf {j : ℕ} (hj : j < ILT_CLI_VF_BLOCKS) :
    ((eocreIltBlkReset cli).vfBlks j).totalSize = 0 := by
  simp [eocreIltBlkReset, if_pos hj, qedCxtSetBlk]

theorem IltClientCfg.Static.reset (h : cli.Static) : (eocreIltBlkReset cli).Static := by
  refine ⟨fun j => ?_, fun j => ?_⟩
  · simp only [eocreIltBlkReset]
    split <;> exact h.1 j
  · simp only [eocreIltBlkReset]
    split <;> exact h.2 j

theorem pfPhase_zero (hpage : cli.pSize = hw.iltPageSize) (line : ℕ) (hst : st → cli.Static) :
    PfPhase hw st (qedCxtSetCli (eocreIltBlkReset cli), line) 0 line :=
  ⟨hpage, ⟨le_rfl, fun _ => rfl, nofun, nofun⟩, .zero (fun _ => reset_pf) _, fun _ => reset_vf,
    fun h => (hst h).reset⟩

theorem PfPhase.pfTotal (h : PfPhase hw st s j l₀) (start : IltClientCfg → ℕ) :
    PfPhase hw st (setPfTotal start s) j l₀ :=
  { h with spans := { h.spans with } }

theorem VfPhase.vfTotal (h : VfPhase hw st s j l₀ l₁) (start : IltClientCfg → ℕ) :
    VfPhase hw st (setVfTotal start s) j l₀ l₁ :=
  { h with spans := { h.spans with } }

theorem PfPhase.laid (h : PfPhase hw st s j l₀) (hj : j ≤ ILT_CLI_PF_BLOCKS) :
    ClientLaid hw st s.1 l₀ s.2 (s.2 - l₀) 0 := by
  have hle := h.spans.le
  have hdone := h.done hj
  have heq : l₀ + (s.2 - l₀) = s.2 := by omega
  refine ⟨h.page, h.spans, by omega, ?_, ?_, fun hne => absurd rfl hne, h.static⟩
  · rw [heq]
    exact hdone.pf
  · rw [heq]
    exact hdone.vf.skipAll (zero_le _)

theorem iterate_adv {f : IltClientCfg × ℕ → IltClientCfg × ℕ} {c₀ : IltClientCfg} {v : ℕ}
    (hf : ∀ s : IltClientCfg × ℕ, SameBlks c₀ s.1 → Spans s.1 l₀ s.2 → s.2 + v < 2 ^ 32 →
      SameBlks c₀ (f s).1 ∧ Spans (f s).1 l₀ (f s).2 ∧ (f s).2 = s.2 + v)
    (m : ℕ) (hsame : SameBlks c₀ s.1) (hspans : Spans s.1 l₀ s.2) (hlt : s.2 + m * v < 2 ^ 32) :
    SameBlks c₀ (f^[m] s).1 ∧ Spans (f^[m] s).1 l₀ (f^[m] s).2 ∧ (f^[m] s).2 = s.2 + m * v := by
  induction m generalizing s with
  | zero => exact ⟨hsame, hspans, by simp⟩
  | succ m ih =>
    rw [succ_mul] at hlt ⊢
    obtain ⟨hsame', hspans', hsnd⟩ := hf s hsame hspans (by omega)
    rw [iterate_succ_apply]
    obtain ⟨h₁, h₂, h₃⟩ := ih hsame' hspans' (by omega)
    exact ⟨h₁, h₂, by omega⟩

theorem VfPhase.laid {f : IltClientCfg × ℕ → IltClientCfg × ℕ} (h : VfPhase hw st s j l₀ l₁)
    (hj : j ≤ ILT_CLI_VF_BLOCKS) (hvf : s.2 - l₁ ≠ 0 → s.1.vfTotalLines = s.2 - l₁)
    (hf : ∀ t : IltClientCfg × ℕ, SameBlks s.1 t.1 → Spans t.1 l₀ t.2 → t.2 + (s.2 - l₁) < 2 ^ 32 →
      SameBlks s.1 (f t).1 ∧ Spans (f t).1 l₀ (f t).2 ∧ (f t).2 = t.2 + (s.2 - l₁))
    (hlt : s.2 + 2 ^ 26 < 2 ^ 32) (hv : s.2 - l₁ ≤ 2 ^ 18) :
    ClientLaid hw st (f^[hw.vfCount - 1] s).1 l₀ (f^[hw.vfCount - 1] s).2 (l₁ - l₀) (s.2 - l₁) ∧
      SameBlks s.1 (f^[hw.vfCount - 1] s).1 := by
  have hvfs := hw.vfCount_le
  have hle := h.spans.le
  have hle₁ := h.vf.le
  have hle₀ := h.pf.le
  have hmul : (hw.vfCount - 1) * (s.2 - l₁) ≤ 191 * 2 ^ 18 := Nat.mul_le_mul (by omega) hv
  obtain ⟨hsame, hspans, hsnd⟩ := iterate_adv hf (hw.vfCount - 1)
    ⟨rfl, rfl, rfl, rfl, rfl⟩ h.spans (by omega)
  have h₁ : l₀ + (l₁ - l₀) = l₁ := by omega
  have h₂ : l₁ + (s.2 - l₁) = s.2 := by omega
  have hmax : max 1 hw.vfCount * (s.2 - l₁) = (s.2 - l₁) + (hw.vfCount - 1) * (s.2 - l₁) := by
    rw [show max 1 hw.vfCount = hw.vfCount - 1 + 1 by omega, succ_mul, add_comm]
  refine ⟨⟨hsame.page.trans h.page, hspans, by omega, ?_, ?_, fun hne =>
    hsame.vfTotal.trans (hvf hne),
    fun hst => (h.static hst).of_same hsame⟩, hsame⟩
  · rw [h₁, hsame.pf]
    exact h.pf
  · rw [h₁, h₂, hsame.vf]
    exact h.vf.skipAll hj

theorem advVf_spec {c₀ : IltClientCfg} (hblk : c₀.vfBlks j = blk)
    (hreal : blk.totalSize ≠ 0 → blk.realSizeInPage ≠ 0) (hsame : SameBlks c₀ s.1)
    (hspans : Spans s.1 l₀ s.2) (hlt : s.2 + blk.lineCnt < 2 ^ 32) :
    SameBlks c₀ (advVf j s).1 ∧ Spans (advVf j s).1 l₀ (advVf j s).2 ∧
      (advVf j s).2 = s.2 + blk.lineCnt := by
  rw [advVf, hsame.vf, hblk]
  exact ⟨hsame.trans (sameBlks_advLine blk s), hspans.advLine hreal hlt, advLine_snd hreal hlt⟩

/-! ## The clients -/

theorem elem_connCxt (hw : IltHw) : hw.Elem hw.connCxtSize :=
  ⟨by have := hw.le_connCxtSize; omega, hw.connCxtSize_le⟩

theorem elem_task (hw : IltHw) (type : ℕ) : hw.Elem (hw.taskTypeSize type) :=
  ⟨hw.taskTypeSize_pos type, hw.taskTypeSize_le type⟩

variable {req : IltReq} {cli : IltClientCfg}

theorem vfTotal_eq (start : IltClientCfg → ℕ) (hstart : start s.1 = l₁) (hle : l₁ ≤ s.2)
    (hlt : s.2 < 2 ^ 32) : (setVfTotal start s).1.vfTotalLines = s.2 - l₁ := by
  change Word.sub 32 s.2 (start s.1) = _
  rw [hstart]
  exact Word.sub_of_le_of_lt hle hlt

theorem VfPhase.one (h : VfPhase hw st s 0 l₀ s.2) (he : hw.Elem elem)
    (hlt : s.2 + 2 ^ 27 < 2 ^ 32) (total : ℕ) {t : IltClientCfg × ℕ}
    (ht : (advVf 0)^[hw.vfCount - 1]
      (setVfTotal (fun c => (c.vfBlks 0).startLine) (placeVf 0 total elem s)) = t) :
    ClientLaid hw st t.1 l₀ t.2 (s.2 - l₀) (linesOf hw.iltPageSize total elem) ∧
      t.1.pfBlks = s.1.pfBlks ∧ (t.1.vfBlks 0).Filled hw s.2 total elem ∧
      ∀ i, 1 ≤ i → i < ILT_CLI_VF_BLOCKS → (t.1.vfBlks i).totalSize = 0 := by
  have hcnt := he.linesOf_le total
  obtain ⟨hplace, hsnd, hblk⟩ := h.place he (by omega) total
  have hpf : (placeVf 0 total elem s).1.pfBlks = s.1.pfBlks := (sameBlks_advLine _ _).pf
  have htotal := vfTotal_eq (fun c => (c.vfBlks 0).startLine) hblk.start
    (by rw [hsnd]; omega) (by rw [hsnd]; omega)
  have hv : (placeVf 0 total elem s).2 - s.2 = linesOf hw.iltPageSize total elem := by omega
  obtain ⟨hlaid, hsame⟩ := (hplace.vfTotal fun c => (c.vfBlks 0).startLine).laid
    (by decide) (fun _ => htotal)
    (fun t hsame hspans ht => by
      change t.2 + ((placeVf 0 total elem s).2 - s.2) < _ at ht
      change _ ∧ _ ∧ _ = t.2 + ((placeVf 0 total elem s).2 - s.2)
      rw [hv, ← hblk.cnt] at ht ⊢
      exact advVf_spec rfl (fun _ => hblk.real) hsame hspans ht)
    (by change (placeVf 0 total elem s).2 + _ < _; omega)
    (hv.trans_le (hcnt.trans (by decide)))
  rw [← ht, hsame.vf]
  refine ⟨?_, hsame.pf.trans hpf, hblk, hplace.vf.rest⟩
  rw [← hv]
  exact hlaid

section Laid

variable (hpage : cli.pSize = hw.iltPageSize) (hst : st → cli.Static)

include hpage hst

theorem tm_laid (req : IltReq) (hlt : line + 2 ^ 28 < 2 ^ 32) :
    ∃ a ≤ 2 ^ 17, ∃ v ≤ 2 ^ 17,
      ClientLaid hw st (tmCompute hw req (eocreIltBlkReset cli) line).1 line
        (tmCompute hw req (eocreIltBlkReset cli) line).2 a v ∧ (tmVfTotal req = 0 → v = 0) := by
  have he : hw.Elem TM_ELEM_SIZE := ⟨by decide, by decide⟩
  unfold tmCompute
  dsimp only
  generalize hs : (if tmPfTotal req ≠ 0 then _ else _) = s
  -- the block of the PF
  obtain ⟨j, hj, hpf, hle⟩ : ∃ j ≤ 1, PfPhase hw st s j line ∧ s.2 ≤ line + 2 ^ 17 := by
    rw [← hs]
    split
    · obtain ⟨hplace, hsnd, -⟩ := (pfPhase_zero hpage line hst).place he (by omega)
        (tmPfTotal req * TM_ELEM_SIZE % 2 ^ 32)
      have hcnt := he.linesOf_le (tmPfTotal req * TM_ELEM_SIZE % 2 ^ 32)
      refine ⟨1, le_rfl, hplace.pfTotal _, ?_⟩
      rw [show (setPfTotal _ _).2 = (placePf _ _ _ _).2 from rfl]
      omega
    · exact ⟨0, Nat.zero_le _, pfPhase_zero hpage line hst, Nat.le_add_right ..⟩
  have hge := hpf.spans.le
  have hj' : j ≤ ILT_CLI_PF_BLOCKS := hj.trans (by decide)
  by_cases hvf : tmVfTotal req = 0
  · rw [if_neg (not_not.2 hvf)]
    exact ⟨_, by omega, 0, zero_le _, hpf.laid hj', fun _ => rfl⟩
  · rw [if_pos hvf]
    exact ⟨s.2 - line, by omega, _, he.linesOf_le (tmVfTotal req * TM_ELEM_SIZE % 2 ^ 32),
      ((hpf.done hj').one he (by omega) _ rfl).1, fun h => absurd h hvf⟩

variable (hlt : line + 2 ^ 17 < 2 ^ 32)

include hlt

theorem one_laid (he : hw.Elem elem) (total : ℕ) (start : IltClientCfg → ℕ) {s : IltClientCfg × ℕ}
    (hs : s = setPfTotal start (placePf 0 total elem (qedCxtSetCli (eocreIltBlkReset cli), line))) :
    ∃ a ≤ 2 ^ 17, ClientLaid hw st s.1 line s.2 a 0 := by
  obtain ⟨hplace, hsnd, -⟩ := (pfPhase_zero hpage line hst).place he hlt total
  have hcnt := he.linesOf_le total
  subst hs
  refine ⟨_, ?_, (hplace.pfTotal start).laid (by decide)⟩
  rw [show (setPfTotal start _).2 = (placePf _ _ _ _).2 from rfl]
  omega

theorem qm_laid (req : IltReq) :
    ∃ a ≤ 2 ^ 17, ClientLaid hw st (qmCompute hw req (eocreIltBlkReset cli) line).1 line
      (qmCompute hw req (eocreIltBlkReset cli) line).2 a 0 :=
  one_laid hpage hst hlt ⟨by decide, by decide⟩ _ _ rfl

theorem src_laid (req : IltReq) :
    ∃ a ≤ 2 ^ 17, ClientLaid hw st (srcCompute hw req (eocreIltBlkReset cli) line).1 line
      (srcCompute hw req (eocreIltBlkReset cli) line).2 a 0 := by
  rw [srcCompute]
  split
  · exact one_laid hpage hst hlt ⟨by decide, by decide⟩ _ _ rfl
  · refine ⟨_, ?_, (pfPhase_zero hpage line hst).laid (zero_le _)⟩
    rw [Nat.sub_self]
    exact zero_le _

theorem tsdm_laid (hsrq : qedCxtGetTotalSrqCount hw req ≠ 0) :
    ∃ a ≤ 2 ^ 17, ClientLaid hw st (tsdmCompute hw req (eocreIltBlkReset cli) line).1 line
      (tsdmCompute hw req (eocreIltBlkReset cli) line).2 a 0 := by
  rw [tsdmCompute, if_pos hsrq]
  exact one_laid hpage hst hlt ⟨hw.srqCxtSize_pos, hw.srqCxtSize_le⟩ _ _ rfl

end Laid

/-- A line count that is allocated later is part of a block. -/
theorem UpTo.congr (h : UpTo blks n j l₀ line)
    (hsize : ∀ i, (blks' i).totalSize = (blks i).totalSize)
    (hreal : ∀ i, (blks' i).realSizeInPage = (blks i).realSizeInPage)
    (hstart : ∀ i, (blks' i).startLine = (blks i).startLine) : UpTo blks' n j l₀ line := by
  have hcnt : ∀ i, (blks' i).lineCnt = (blks i).lineCnt := fun i => by
    rw [lineCnt, lineCnt, hsize, hreal]
  have hlines : ∀ i d, (blks' i).lines d = (blks i).lines d := fun i d => by
    rw [lines, lines, hstart, hcnt]
  refine ⟨fun d => ?_, h.le, fun i hi hne => ?_, fun i hi hn => ?_⟩
  · simp only [hlines]
    exact h.flat d
  · rw [hstart, hcnt]
    exact h.start i hi (hsize i ▸ hne)
  · rw [hsize]
    exact h.rest i hi hn

/-- Only the dynamic lines of a block are set. -/
theorem update_dynamic {α : Type*} (f : IltCliBlk → α)
    (hf : ∀ (p c : ℕ) (b : IltCliBlk), f (qedIltGetDynamicLineRange hw p c b) = f b) (p c i : ℕ) :
    f (update blks 0 (qedIltGetDynamicLineRange hw p c (blks 0)) i) = f (blks i) := by
  rcases eq_or_ne i 0 with rfl | hi
  · rw [update_self, hf]
  · rw [update_of_ne hi]

theorem UpTo.dynamic (h : UpTo blks n j l₀ line) (p c : ℕ) :
    UpTo (update blks 0 (qedIltGetDynamicLineRange hw p c (blks 0))) n j l₀ line :=
  h.congr (update_dynamic totalSize (fun _ _ _ => rfl) p c)
    (update_dynamic realSizeInPage (fun _ _ _ => rfl) p c)
    (update_dynamic startLine (fun _ _ _ => rfl) p c)

/-- The lines that are allocated later are the first ones of the block. -/
def IltCliBlk.Skips (blk : IltCliBlk) : Prop :=
  blk.totalSize ≠ 0 → blk.dynamicLineOffset = 0 ∧ blk.dynamicLineCnt ≤ blk.lineCnt

theorem IltCliBlk.Static.skips (h : blk.Static) : blk.Skips :=
  fun _ => ⟨h.1, by rw [h.2]; exact zero_le _⟩

/-- The lines of RoCE connections are among those of all connections. -/
theorem dynamic_le {count cids : ℕ} (hle : count ≤ cids) (hcids : cids ≤ 786432) (hpos : cids ≠ 0) :
    count / (iltPageInBytes hw.iltPageSize / hw.connCxtSize) ≤
      linesOf hw.iltPageSize (cids * hw.connCxtSize % 2 ^ 32) hw.connCxtSize := by
  have hcxt := hw.le_connCxtSize
  obtain ⟨hlow, hhigh⟩ := (elem_connCxt hw).real
  have htotal := mul_le_mul hcids hw.connCxtSize_le
  have hpos' : 0 < cids * hw.connCxtSize := mul_pos (by omega) (by omega)
  rw [mod_eq_of_lt (by omega), linesOf, if_neg hpos'.ne', divRoundUp]
  calc count / (iltPageInBytes hw.iltPageSize / hw.connCxtSize)
      ≤ cids / (iltPageInBytes hw.iltPageSize / hw.connCxtSize) := Nat.div_le_div_right hle
    _ = cids * hw.connCxtSize / (iltPageInBytes hw.iltPageSize / hw.connCxtSize * hw.connCxtSize) :=
        (Nat.mul_div_mul_right _ _ (by omega)).symm
    _ ≤ _ := Nat.div_le_div_right (by omega)

theorem skips_dynamic {count cids line : ℕ}
    (hblk : blk.Filled hw line (cids * hw.connCxtSize % 2 ^ 32) hw.connCxtSize) (hle : count ≤ cids)
    (hcids : cids ≤ 786432) :
    (qedIltGetDynamicLineRange hw hw.iltPageSize count blk).Skips := by
  intro hne
  refine ⟨rfl, ?_⟩
  have hcnt : (qedIltGetDynamicLineRange hw hw.iltPageSize count blk).lineCnt = _ := hblk.cnt
  rw [hcnt]
  refine dynamic_le hle hcids fun h0 => hne ?_
  refine hblk.size.trans ?_
  rw [h0, zero_mul, zero_mod]

/-- Only the first block has lines that are allocated later. -/
theorem skips_update (hblk : blk.Skips) (hrest : ∀ i, 1 ≤ i → i < n → (blks i).totalSize = 0) :
    ∀ i < n, (update blks 0 blk i).Skips := by
  intro i hi
  rcases Nat.eq_zero_or_pos i with rfl | hpos
  · rwa [update_self]
  · rw [update_of_ne (by omega)]
    exact fun hne => absurd (hrest i hpos hi) hne

/-- The counts that callers of `qed_cxt_set_proto_cid_count` and `qed_cxt_set_proto_tid_count` ask
for. -/
structure IltReq.Requested (req : IltReq) : Prop where
  cidCount : ∀ type, (req.connCfg type).cidCount ≤ 98304
  cidsPerVf : ∀ type, (req.connCfg type).cidsPerVf ≤ 98304
  vfTids : ∀ type, (req.tidSeg type TASK_SEGMENT_VF).count ≤ 2 ^ 17

/-- A sum over the connection types does not wrap around. -/
theorem sumTypes_spec {f : ℕ → ℕ} (hf : ∀ type, f type ≤ 98304) :
    sumTypes f ≤ 786432 ∧ ∀ type < MAX_CONN_TYPES, f type ≤ sumTypes f := by
  have hsum : ((range MAX_CONN_TYPES).map f).sum ≤ 786432 := by
    have := hf 0; have := hf 1; have := hf 2; have := hf 3
    have := hf 4; have := hf 5; have := hf 6; have := hf 7
    simp only [MAX_CONN_TYPES, range, range.loop, map_cons, map_nil, sum_cons, sum_nil]
    omega
  rw [sumTypes, mod_eq_of_lt (by omega)]
  exact ⟨hsum, fun type htype => le_sum_of_mem (mem_map_of_mem (mem_range.2 htype))⟩

theorem cduc_laid (hreq : req.Requested) (hpage : cli.pSize = hw.iltPageSize)
    (hlt : line + 2 ^ 28 < 2 ^ 32) :
    ∃ a ≤ 2 ^ 17, ClientLaid hw False (cducCompute hw req (eocreIltBlkReset cli) line).1 line
        (cducCompute hw req (eocreIltBlkReset cli) line).2 a
        (linesOf hw.iltPageSize ((qedCxtCduIids req).2 * hw.connCxtSize % 2 ^ 32) hw.connCxtSize) ∧
      (∀ j < ILT_CLI_PF_BLOCKS,
        ((cducCompute hw req (eocreIltBlkReset cli) line).1.pfBlks j).Skips) ∧
      ∀ j < ILT_CLI_VF_BLOCKS,
        ((cducCompute hw req (eocreIltBlkReset cli) line).1.vfBlks j).Skips := by
  have he := elem_connCxt hw
  have hcnt := he.linesOf_le ((qedCxtCduIids req).1 * hw.connCxtSize % 2 ^ 32)
  obtain ⟨hplace, hsnd, hpfBlk⟩ :=
    (pfPhase_zero hpage line (fun h : False => h.elim)).place he (by omega)
    ((qedCxtCduIids req).1 * hw.connCxtSize % 2 ^ 32)
  have hdone := (hplace.pfTotal fun c => (c.pfBlks CDUC_BLK).startLine).done (by decide)
  unfold cducCompute
  dsimp only
  generalize ht : (advVf CDUC_BLK)^[hw.vfCount - 1] _ = t
  obtain ⟨hlaid, hpf, hvfBlk, hrest⟩ := hdone.one he
    (by change (placePf _ _ _ _).2 + _ < _; rw [hsnd]; omega) _ ht
  obtain ⟨hpfSum, hpfLe⟩ := sumTypes_spec hreq.cidCount
  obtain ⟨hvfSum, hvfLe⟩ := sumTypes_spec hreq.cidsPerVf
  refine ⟨_, ?_, { hlaid with
    spans := { hlaid.spans with }, pf := hlaid.pf.dynamic .., vf := hlaid.vf.dynamic ..
    static := nofun }, ?_, ?_⟩
  · change (placePf _ _ _ _).2 - line ≤ _
    rw [hsnd]
    omega
  · rw [hlaid.page, hpf]
    exact skips_update (skips_dynamic hpfBlk (hpfLe _ (by decide)) hpfSum) hplace.pf.rest
  · rw [hlaid.page]
    exact skips_update (skips_dynamic hvfBlk (hvfLe _ (by decide)) hvfSum) hrest

/-- The task client begins at its first line, even before it is active. -/
structure CdutPhase (hw : IltHw) (st : Prop) (s : IltClientCfg × ℕ) (j l₀ : ℕ) : Prop where
  phase : PfPhase hw st s j l₀
  first : s.1.first = l₀

theorem CdutPhase.skip (h : CdutPhase hw st s j l₀) (hj : j < ILT_CLI_PF_BLOCKS) :
    CdutPhase hw st s (j + 1) l₀ :=
  ⟨h.phase.skip hj, h.first⟩

theorem CdutPhase.place (h : CdutPhase hw st s j l₀) (hlt : s.2 + 2 ^ 17 < 2 ^ 32)
    (he : hw.Elem elem)
    (total : ℕ) :
    CdutPhase hw st (placePf j total elem s) (j + 1) l₀ ∧
      (placePf j total elem s).2 ≤ s.2 + 2 ^ 17 := by
  obtain ⟨hplace, hsnd, -⟩ := h.phase.place he hlt total
  have hcnt := he.linesOf_le total
  refine ⟨⟨hplace, ?_⟩, by omega⟩
  rw [placePf, qedIltCliAdvLine]
  split
  · exact h.first
  · change (if s.1.active then s.1.first else s.2) = l₀
    split
    · exact h.first
    · rename_i hact
      exact h.phase.spans.idle (by simpa using hact)

theorem CdutPhase.working (h : CdutPhase hw st s (CDUT_SEG_BLK j) l₀)
    (hj : j < NUM_TASK_PF_SEGMENTS)
    (hlt : s.2 + 2 ^ 17 < 2 ^ 32) (req : IltReq) :
    CdutPhase hw st (cdutWorking hw req s j) (CDUT_SEG_BLK (j + 1)) l₀ ∧
      (cdutWorking hw req s j).2 ≤ s.2 + 2 ^ 17 := by
  rw [NUM_TASK_PF_SEGMENTS] at hj
  rw [cdutWorking]
  split
  · exact ⟨h.skip (by rw [CDUT_SEG_BLK]; change 1 + j < 9; omega), Nat.le_add_right ..⟩
  · exact h.place hlt (elem_task hw _) _

theorem CdutPhase.forcedLoad
    (h : CdutPhase hw st s (CDUT_FL_SEG_BLK j NUM_TASK_PF_SEGMENTS) l₀)
    (hj : j < NUM_TASK_PF_SEGMENTS) (hlt : s.2 + 2 ^ 17 < 2 ^ 32) (req : IltReq) :
    CdutPhase hw st (cdutForcedLoad hw req s j) (CDUT_FL_SEG_BLK (j + 1) NUM_TASK_PF_SEGMENTS) l₀ ∧
      (cdutForcedLoad hw req s j).2 ≤ s.2 + 2 ^ 17 := by
  rw [cdutForcedLoad]
  split
  · refine ⟨h.skip ?_, Nat.le_add_right ..⟩
    rw [NUM_TASK_PF_SEGMENTS] at hj
    change 1 + j + 4 < 9
    omega
  · split
    · exact h.place hlt (elem_task hw _) _
    · exact ⟨⟨h.phase.empty _, h.first⟩, Nat.le_add_right ..⟩

theorem CdutPhase.segments {f : IltClientCfg × ℕ → ℕ → IltClientCfg × ℕ} (blk : ℕ → ℕ)
    (hf : ∀ s : IltClientCfg × ℕ, ∀ j < NUM_TASK_PF_SEGMENTS, CdutPhase hw st s (blk j) l₀ →
      s.2 + 2 ^ 17 < 2 ^ 32 → CdutPhase hw st (f s j) (blk (j + 1)) l₀ ∧ (f s j).2 ≤ s.2 + 2 ^ 17)
    (h : CdutPhase hw st s (blk 0) l₀) (hlt : s.2 + 2 ^ 20 < 2 ^ 32) (m : ℕ)
    (hm : m ≤ NUM_TASK_PF_SEGMENTS) :
    CdutPhase hw st ((range m).foldl f s) (blk m) l₀ ∧
      ((range m).foldl f s).2 ≤ s.2 + m * 2 ^ 17 := by
  induction m with
  | zero => exact ⟨h, Nat.le_add_right ..⟩
  | succ m ih =>
    obtain ⟨hphase, hle⟩ := ih (by omega)
    have hm' : m ≤ 4 := (le_succ m).trans hm
    rw [range_succ, foldl_append, foldl_cons, foldl_nil]
    obtain ⟨hphase', hle'⟩ := hf _ m hm hphase (by omega)
    exact ⟨hphase', by omega⟩

theorem cdutPhase_done (hpage : cli.pSize = hw.iltPageSize) (hst : st → cli.Static)
    (hlt : line + 2 ^ 28 < 2 ^ 32) {s : IltClientCfg × ℕ}
    (hs : (range NUM_TASK_PF_SEGMENTS).foldl (cdutForcedLoad hw req)
      ((range NUM_TASK_PF_SEGMENTS).foldl (cdutWorking hw req)
        ({ qedCxtSetCli (eocreIltBlkReset cli) with first := line }, line)) = s) :
    CdutPhase hw st s ILT_CLI_PF_BLOCKS line ∧ s.2 ≤ line + 2 ^ 20 := by
  have hzero := pfPhase_zero hpage line hst
  have hbegin : CdutPhase hw st ({ qedCxtSetCli (eocreIltBlkReset cli) with first := line }, line)
      (CDUT_SEG_BLK 0) line := by
    exact CdutPhase.skip
      ⟨{ hzero with spans := ⟨le_rfl, fun _ => rfl, nofun, nofun⟩ }, rfl⟩ (by decide)
  obtain ⟨hwork, hle⟩ := hbegin.segments CDUT_SEG_BLK
    (fun _ _ hj h ht => h.working hj ht req) (by change line + _ < _; omega) 4 le_rfl
  obtain ⟨hfl, hle'⟩ := hwork.segments
    (fun j => CDUT_FL_SEG_BLK j NUM_TASK_PF_SEGMENTS)
    (fun _ _ hj h ht => h.forcedLoad hj ht req) (by change _ ≤ line + _ at hle; omega) 4 le_rfl
  rw [← hs]
  refine ⟨hfl, ?_⟩
  change _ ≤ line + _ at hle
  exact hle'.trans (by omega)

theorem fillVf_of_ne (cli : IltClientCfg) {i : ℕ} (hne : i ≠ j) (line total elem : ℕ) :
    (cli.fillVf j line total elem).vfBlks i = cli.vfBlks i :=
  update_of_ne hne ..

theorem VfPhase.forcedLoad (h : VfPhase hw st s 2 l₀ l₁) (hlt : s.2 + 2 ^ 17 < 2 ^ 32)
    (he : hw.Elem elem) (fl : Bool) (total : ℕ) {t : IltClientCfg × ℕ}
    (ht : (if fl then placeVf (CDUT_FL_SEG_BLK 0 NUM_TASK_VF_SEGMENTS) total elem s
      else
        (s.1.fillVf (CDUT_FL_SEG_BLK 0 NUM_TASK_VF_SEGMENTS)
          (s.1.vfBlks (CDUT_SEG_BLK 0)).startLine 0 0, s.2)) = t) :
    VfPhase hw st t 3 l₀ l₁ ∧ t.2 = s.2 + (t.1.vfBlks 2).lineCnt ∧ t.2 ≤ s.2 + 2 ^ 17 ∧
      ((t.1.vfBlks 2).totalSize ≠ 0 → (t.1.vfBlks 2).realSizeInPage ≠ 0) ∧
      t.1.vfBlks 1 = s.1.vfBlks 1 ∧ t.1.pfTotalLines = s.1.pfTotalLines := by
  split at ht
  · have hcnt := he.linesOf_le total
    obtain ⟨hplace, hsnd, hblk⟩ := h.place he hlt total
    have hsame := sameBlks_advLine ((s.1.fillVf 2 s.2 total elem).vfBlks 2)
      (s.1.fillVf 2 s.2 total elem, s.2)
    rw [← ht]
    refine ⟨hplace, hsnd.trans (by rw [← hblk.cnt]; rfl), hsnd.trans_le (by omega),
      fun _ => hblk.real, ?_, hsame.pfTotal⟩
    exact (congrFun hsame.vf 1).trans (fillVf_of_ne _ (by decide) ..)
  · have hsize : ((s.1.fillVf 2 (s.1.vfBlks (CDUT_SEG_BLK 0)).startLine 0 0).vfBlks 2).totalSize =
        0 := by
      simp [fillVf, update_self, fill_setBlk]
    rw [← ht]
    refine ⟨h.empty _, ?_, Nat.le_add_right .., fun hne => absurd hsize hne,
      fillVf_of_ne _ (by decide) .., rfl⟩
    exact congrArg (s.2 + ·) (lineCnt_of_zero hsize).symm

theorem cdut_laid (req : IltReq) (hpage : cli.pSize = hw.iltPageSize) (hst : st → cli.Static)
    (hlt : line + 2 ^ 28 < 2 ^ 32) :
    ∃ a ≤ 2 ^ 20, ∃ v ≤ 2 ^ 18,
      ClientLaid hw st (cdutCompute hw req (eocreIltBlkReset cli) line).1 line
        (cdutCompute hw req (eocreIltBlkReset cli) line).2 a v ∧
      (qedCxtTidSegInfo req TASK_SEGMENT_VF = none → v = 0) ∧
      ∀ seg, qedCxtTidSegInfo req TASK_SEGMENT_VF = some seg →
        linesOf hw.iltPageSize (seg.count * hw.taskTypeSize seg.type % 2 ^ 32)
          (hw.taskTypeSize seg.type) ≤ v := by
  unfold cdutCompute
  dsimp only
  generalize hs : foldl (cdutForcedLoad hw req) _ _ = s
  obtain ⟨⟨hphase, hfirst⟩, hle⟩ := cdutPhase_done hpage hst hlt hs
  have hge := hphase.spans.le
  have hpf := hphase.pfTotal first
  have htotal : (setPfTotal first s).1.pfTotalLines = s.2 - line := by
    change Word.sub 32 s.2 s.1.first = _
    rw [hfirst]
    exact Word.sub_of_le_of_lt hge (by omega)
  unfold cdutVf
  cases hseg : qedCxtTidSegInfo req TASK_SEGMENT_VF with
  | none => exact ⟨_, by change s.2 - line ≤ _; omega, 0, zero_le _, hpf.laid le_rfl,
      fun _ => rfl, nofun⟩
  | some seg =>
    have he := elem_task hw seg.type
    dsimp only
    generalize htotal' : seg.count * hw.taskTypeSize seg.type % 2 ^ 32 = total
    have hcnt := he.linesOf_le total
    have hskip : VfPhase hw st _ (CDUT_SEG_BLK 0) _ _ := (hpf.done le_rfl).skip (by decide)
    obtain ⟨hplace, hsnd, hblk⟩ := hskip.place he (by change s.2 + _ < _; omega) total
    have hpfTotal : (placeVf (CDUT_SEG_BLK 0) total (hw.taskTypeSize seg.type)
        (setPfTotal first s)).1.pfTotalLines = s.2 - line :=
      ((sameBlks_advLine _ _).pfTotal).trans htotal
    generalize placeVf (CDUT_SEG_BLK 0) total _ _ = r at hplace hsnd hblk hpfTotal ⊢
    change r.2 = s.2 + _ at hsnd
    generalize ht : (if seg.hasFlMem = true then _ else _) = t
    obtain ⟨hload, htsnd, htle, hreal, hkeep, hkeepTotal⟩ := hplace.forcedLoad (by omega) he _ _ ht
    have hv : t.2 - s.2 ≤ 2 ^ 18 := by omega
    have hspans := hload.spans
    -- the client is active as soon as a VF has lines
    have hvf : t.2 - s.2 ≠ 0 → (setVfTotal (fun c => (c.first + c.pfTotalLines) % 2 ^ 32)
        t).1.vfTotalLines = t.2 - s.2 := by
      intro hne
      refine vfTotal_eq _ ?_ (by omega) (by omega)
      have hact : t.1.active = true := by
        by_contra hidle
        have := hspans.idle (by simpa using hidle)
        omega
      change (t.1.first + t.1.pfTotalLines) % 2 ^ 32 = s.2
      rw [hspans.first hact, hkeepTotal, hpfTotal, mod_eq_of_lt (by omega)]
      omega
    obtain ⟨hlaid, -⟩ := (hload.vfTotal fun c => (c.first + c.pfTotalLines) % 2 ^ 32).laid
      (f := fun s => advVf (CDUT_FL_SEG_BLK 0 NUM_TASK_VF_SEGMENTS) (advVf (CDUT_SEG_BLK 0) s))
      le_rfl hvf
      (fun u hsame hspans hu => by
        change u.2 + (t.2 - s.2) < _ at hu
        change _ ∧ _ ∧ _ = u.2 + (t.2 - s.2)
        have hcnt₁ := (congrArg lineCnt hkeep).trans hblk.cnt
        obtain ⟨hsame₁, hspans₁, hsnd₁⟩ := advVf_spec (j := 1) rfl
          (fun _ => hkeep ▸ hblk.real) hsame hspans
            (by change _ + (t.1.vfBlks 1).lineCnt < _; omega)
        change (advVf 1 u).2 = u.2 + (t.1.vfBlks 1).lineCnt at hsnd₁
        have hreal₂ : ((setVfTotal (fun c => (c.first + c.pfTotalLines) % 2 ^ 32)
            t).1.vfBlks 2).totalSize ≠ 0 → _ := hreal
        obtain ⟨hsame₂, hspans₂, hsnd₂⟩ := advVf_spec (j := 2) rfl hreal₂ hsame₁ hspans₁
          (by change _ + (t.1.vfBlks 2).lineCnt < _; omega)
        change (advVf 2 (advVf 1 u)).2 = _ + (t.1.vfBlks 2).lineCnt at hsnd₂
        exact ⟨hsame₂, hspans₂, by change (advVf 2 (advVf 1 u)).2 = _; omega⟩)
      (by change t.2 + _ < _; omega) hv
    refine ⟨s.2 - line, by omega, t.2 - s.2, hv, hlaid, nofun, ?_⟩
    rintro _ ⟨⟩
    rw [htotal']
    omega

end FastLinQ.Qed
