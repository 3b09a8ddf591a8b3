import FastLinQ.Qedr.Send

/-!
# The size of a WQE

How many elements `__qedr_post_send` takes for a WR, and which size it writes. The two are counted
separately: the size is set or increased in each branch of the switch, beside the calls that produce
the elements. `build_spec` has both in closed form. They agree, and are at most
`QEDR_MAX_SQE_ELEMENTS_PER_SQE`, for the WRs that are `Fitting`: an atomic operation has one SGE, as
its size assumes, and the lengths of inline data add up without overflow, or to zero
(`sizes_agree_iff`).
-/

namespace FastLinQ.Qedr

open Qed List Nat Bool SqBuild IbSendWr

/-! ## More elements -/

namespace SqBuild

/-- `b` is `b₀` with `n` more elements. -/
structure Grown (b₀ b : SqBuild) (n : ℕ) : Prop where
  pbl : b.pbl = produceN n b₀.pbl
  elems : b.elems = b₀.elems ++ produceList n b₀.pbl
  bad : b.bad = b₀.bad

variable {b₀ b₁ b₂ : SqBuild} {n m : ℕ}

theorem Grown.refl (b : SqBuild) : Grown b b 0 := ⟨rfl, (append_nil _).symm, rfl⟩

theorem Grown.trans (h : Grown b₀ b₁ n) (h' : Grown b₁ b₂ m) : Grown b₀ b₂ (n + m) where
  pbl := by rw [h'.pbl, h.pbl, produceN_add]
  elems := by rw [h'.elems, h.elems, h.pbl, append_assoc, produceList_add]
  bad := h'.bad.trans h.bad

theorem Grown.iterate (b : SqBuild) (n : ℕ) : Grown b (produce^[n] b) n := by
  induction n with
  | zero => exact .refl b
  | succ n ih =>
    rw [Function.iterate_succ_apply']
    exact ih.trans ⟨rfl, rfl, rfl⟩

theorem wqeSize_iterate (b : SqBuild) (n : ℕ) : (produce^[n] b).wqeSize = b.wqeSize := by
  induction n with
  | zero => rfl
  | succ n ih =>
    rw [Function.iterate_succ_apply']
    exact ih

/-! ## Inline data -/

/-- `x` bytes were copied behind `b₀`, with room for `r.2` more in the last element. -/
def Copied (b₀ : SqBuild) (x : ℕ) (r : SqBuild × ℕ) : Prop :=
  ∃ n, Grown b₀ r.1 n ∧ r.1.wqeSize = (b₀.wqeSize + n) % 2 ^ 8 ∧
    QEDR_SQE_ELEMENT_SIZE * n = x + r.2 ∧ r.2 < QEDR_SQE_ELEMENT_SIZE

/-- A turn of the copy loop goes to the next element if the last one is full. -/
theorem Copied.segment {x : ℕ} {b : SqBuild} {segSiz : ℕ} (h : Copied b₀ x (b, segSiz)) :
    ∃ n r, (if segSiz = 0 then
        ({ b.produce with wqeSize := (b.wqeSize + 1) % 2 ^ 8 }, QEDR_SQE_ELEMENT_SIZE)
      else (b, segSiz)) = r ∧ Grown b₀ r.1 n ∧ r.1.wqeSize = (b₀.wqeSize + n) % 2 ^ 8 ∧
      QEDR_SQE_ELEMENT_SIZE * n = x + r.2 ∧ r.2 ≤ QEDR_SQE_ELEMENT_SIZE ∧ 0 < r.2 := by
  obtain ⟨n, hg, hw, hn, hlt⟩ := h
  split
  · next hzero =>
    refine ⟨n + 1, _, rfl, hg.trans ⟨rfl, rfl, rfl⟩, ?_, ?_, le_rfl, succ_pos 15⟩
    · rw [hw, mod_add_mod, add_assoc]
    · rw [mul_succ]
      omega
  · next hpos => exact ⟨n, _, rfl, hg, hw, hn, hlt.le, by dsimp only; omega⟩

/-- The loop over one SGE copies all of it. -/
theorem Copied.copySge {x t len : ℕ} {r : SqBuild × ℕ} (h : Copied b₀ x r) (ht : len ≤ t) :
    Copied b₀ (x + len) (copySge t r.1 r.2 len) := by
  induction t generalizing x len r with
  | zero =>
    obtain rfl : len = 0 := by omega
    exact h
  | succ t ih =>
    rw [SqBuild.copySge]
    by_cases hlen : len = 0
    · rw [hlen]
      exact h
    · rw [if_neg hlen]
      obtain ⟨n, r', hr', hg, hw, hn, hle, hpos⟩ := h.segment
      rw [hr']
      have hstep : Copied b₀ (x + min len r'.2) (r'.1, r'.2 - min len r'.2) :=
        ⟨n, hg, hw, by dsimp only; omega, by dsimp only; omega⟩
      have hrest := ih hstep (show len - min len r'.2 ≤ t by omega)
      rwa [add_assoc, Nat.add_sub_cancel' (min_le_left _ _)] at hrest

/-- The loop over the SGEs copies all of them. -/
theorem Copied.copySges {x : ℕ} {r : SqBuild × ℕ} (h : Copied b₀ x r) (sgList : List (BitVec 32)) :
    Copied b₀ (x + (sgList.map BitVec.toNat).sum)
      (sgList.foldl (fun r sge => SqBuild.copySge sge.toNat r.1 r.2 sge.toNat) r) := by
  induction sgList generalizing x r with
  | nil => exact h
  | cons sge sgList ih =>
    rw [map_cons, sum_cons, ← add_assoc]
    exact ih (h.copySge le_rfl)

end SqBuild

theorem sgeDataLen_eq (sgList : List (BitVec 32)) :
    sgeDataLen sgList = (sgList.map BitVec.toNat).sum % 2 ^ 32 := by
  have hfold : ∀ (l : List (BitVec 32)) (n : ℕ),
      l.foldl (fun len sge => (len + sge.toNat) % 2 ^ 32) (n % 2 ^ 32) =
        (n + (l.map BitVec.toNat).sum) % 2 ^ 32 := by
    intro l
    induction l with
    | nil => exact fun n => rfl
    | cons sge l ih =>
      intro n
      rw [foldl_cons, mod_add_mod, ih, map_cons, sum_cons, add_assoc]
  have h := hfold sgList 0
  rwa [zero_add] at h

/-! ## What a WR needs -/

namespace IbSendWr

def copied (wr : IbSendWr) : ℕ := (wr.sgList.map BitVec.toNat).sum

/-- Inline data is for sends and RDMA writes. -/
def inlined (wr : IbSendWr) : Bool :=
  match wr.opcode with
  | .send | .sendWithImm | .sendWithInv | .rdmaWrite | .rdmaWriteWithImm => wr.inline
  | _ => false

def atomic (wr : IbSendWr) : Bool :=
  match wr.opcode with
  | .atomicCmpAndSwp | .atomicFetchAndAdd => true
  | _ => false

/-- The WRs whose size is counted right. -/
@[mk_iff]
structure Fitting (wr : IbSendWr) : Prop where
  atomic : wr.atomic = true → wr.sgList.length = 1
  inlined : wr.inlined = true → sgeDataLen wr.sgList ≠ 0 → wr.copied < 2 ^ 32

instance decidableFitting (wr : IbSendWr) : Decidable wr.Fitting :=
  decidable_of_iff _ (fitting_iff wr).symm

def dataElems (wr : IbSendWr) (inl : Bool) (maxInlineData : ℕ) : ℕ :=
  if inl then
    if maxInlineData < sgeDataLen wr.sgList ∨ sgeDataLen wr.sgList = 0 then 0
    else (wr.copied + (QEDR_SQE_ELEMENT_SIZE - 1)) / QEDR_SQE_ELEMENT_SIZE
  else wr.sgList.length

end IbSendWr

/-- The data of a WR, inline or as SGEs. -/
theorem SqBuild.data_spec {b : SqBuild} (hw : b.wqeSize < 2 ^ 8) {inl : Bool} {maxInlineData : ℕ}
    {wr : IbSendWr} {r : SqBuild × ℕ}
    (hr : r = if inl then b.qedrPrepareSqInlineData maxInlineData wr (sgeDataLen wr.sgList)
      else (b.qedrPrepareSqSges true wr, sgeDataLen wr.sgList)) :
    r.1.pbl = produceN (wr.dataElems inl maxInlineData) b.pbl ∧
      r.1.elems = b.elems ++ produceList (wr.dataElems inl maxInlineData) b.pbl ∧
      r.1.wqeSize = (b.wqeSize + wr.dataElems inl maxInlineData) % 2 ^ 8 ∧
      r.1.bad = (b.bad || inl && decide (maxInlineData < sgeDataLen wr.sgList)) := by
  have hsame := (mod_eq_of_lt hw).symm
  have hnil : b.elems = b.elems ++ produceList 0 b.pbl := (append_nil _).symm
  subst hr
  cases inl with
  | false =>
    have hg := Grown.iterate b wr.sgList.length
    refine ⟨hg.pbl, hg.elems, ?_, ?_⟩
    · change ((produce^[wr.sgList.length] b).wqeSize + wr.sgList.length) % 2 ^ 8 = _
      rw [wqeSize_iterate]
      rfl
    · rw [Bool.false_and, Bool.or_false]
      exact hg.bad
  | true =>
    unfold qedrPrepareSqInlineData dataElems
    rw [Bool.true_and]
    by_cases hlong : maxInlineData < sgeDataLen wr.sgList
    · rw [if_pos hlong, if_pos (Or.inl hlong), decide_eq_true hlong, Bool.or_true]
      exact ⟨rfl, hnil, hsame, rfl⟩
    · rw [if_neg hlong, decide_eq_false hlong, Bool.or_false]
      by_cases hzero : sgeDataLen wr.sgList = 0
      · rw [if_pos hzero, if_pos (Or.inr hzero)]
        exact ⟨rfl, hnil, hsame, rfl⟩
      · rw [if_neg hzero, if_neg (not_or_intro hlong hzero)]
        have hstart : Copied b 0 (b, 0) := ⟨0, .refl b, hsame, rfl, succ_pos 15⟩
        obtain ⟨n, hg, hsize, hn, hlt⟩ := hstart.copySges wr.sgList
        have hcount : (wr.copied + (QEDR_SQE_ELEMENT_SIZE - 1)) / QEDR_SQE_ELEMENT_SIZE = n := by
          unfold copied
          unfold QEDR_SQE_ELEMENT_SIZE at hn hlt ⊢
          omega
        rw [hcount]
        exact ⟨hg.pbl, hg.elems, hsize, hg.bad⟩

/-! ## The switch -/

namespace Sq

def unsupported (sq : Sq) (wr : IbSendWr) : Bool :=
  match wr.opcode with
  | .sendWithImm | .rdmaWriteWithImm => sq.iwarp
  | .other _ => true
  | _ => false

/-- The WRs that are rejected after elements were produced for them. -/
def malformed (sq : Sq) (wr : IbSendWr) : Bool :=
  sq.unsupported wr || wr.inlined && decide (sq.maxInlineData < sgeDataLen wr.sgList)

def moreElems (sq : Sq) (wr : IbSendWr) : ℕ :=
  if sq.unsupported wr then 0
  else match wr.opcode with
    | .localInv => 0
    | .regMr => 1
    | .atomicCmpAndSwp | .atomicFetchAndAdd => 2 + wr.sgList.length
    | _ => 1 + wr.dataElems wr.inlined sq.maxInlineData

def headerSize (sq : Sq) (wr : IbSendWr) : ℕ :=
  match wr.opcode with
  | .localInv => 1
  | .regMr => 2
  | .atomicCmpAndSwp | .atomicFetchAndAdd => 4
  | _ => (2 + wr.dataElems wr.inlined sq.maxInlineData) % 2 ^ 8

/-- What a branch of the switch is to make of `b`. -/
structure Built (sq : Sq) (wr : IbSendWr) (b b' : SqBuild) : Prop where
  pbl : b'.pbl = produceN (sq.moreElems wr) b.pbl
  elems : b'.elems = b.elems ++ produceList (sq.moreElems wr) b.pbl
  bad : b'.bad = sq.malformed wr
  size : sq.unsupported wr = false → b'.wqeSize = sq.headerSize wr
  stored : sq.unsupported wr = false → b'.stored = true

variable {sq : Sq} {wr : IbSendWr} {b : SqBuild}

/-- A branch of the switch for sends, RDMA writes and RDMA reads. -/
theorem built_of_data (hb : b.bad = false) {r : SqBuild × ℕ}
    (hr : r = if wr.inlined then
        b.header.qedrPrepareSqInlineData sq.maxInlineData wr (sgeDataLen wr.sgList)
      else (b.header.qedrPrepareSqSges true wr, sgeDataLen wr.sgList))
    (hs : sq.unsupported wr = false)
    (hmore : sq.moreElems wr = 1 + wr.dataElems wr.inlined sq.maxInlineData)
    (hsize : sq.headerSize wr = (2 + wr.dataElems wr.inlined sq.maxInlineData) % 2 ^ 8) :
    sq.Built wr b (.storeLen r) := by
  have hlt : b.header.wqeSize < 2 ^ 8 := show 2 < 2 ^ 8 by decide
  obtain ⟨hpbl, helems, hw, hbad⟩ := data_spec hlt hr
  have hg : Grown b b.header 1 := ⟨rfl, rfl, rfl⟩
  refine ⟨?_, ?_, ?_, fun _ => hw.trans hsize.symm, fun _ => rfl⟩
  · rw [hmore, produceN_add]
    exact hpbl
  · rw [hmore, produceList_add, ← append_assoc]
    exact helems
  · refine hbad.trans ?_
    rw [malformed, hs, hg.bad, hb, Bool.false_or]

theorem built_reject (hs : sq.unsupported wr = true) : sq.Built wr b b.reject := by
  have hzero : sq.moreElems wr = 0 := if_pos hs
  refine ⟨by rw [hzero]; rfl, by rw [hzero]; exact (append_nil _).symm, ?_, ?_, ?_⟩
  · rw [malformed, hs]
    rfl
  · intro hs'
    rw [hs] at hs'
    exact absurd hs' (by decide)
  · intro hs'
    rw [hs] at hs'
    exact absurd hs' (by decide)

/-- The branch of the atomic operations: the size is four, whatever the number of SGEs. -/
theorem built_atomic (hb : b.bad = false) (hs : sq.unsupported wr = false)
    (hi : wr.inlined = false) (hmore : sq.moreElems wr = 2 + wr.sgList.length)
    (hsize : sq.headerSize wr = 4) :
    sq.Built wr b (.store
      ((({ b with wqeSize := 4 } : SqBuild).produce.produce).qedrPrepareSqSges false wr)) := by
  have h₂ : Grown b ({ b with wqeSize := 4 } : SqBuild).produce.produce 2 :=
    ⟨rfl, by
      change b.elems ++ _ ++ _ = _
      rw [append_assoc]
      rfl, rfl⟩
  have hg := h₂.trans (.iterate _ wr.sgList.length)
  refine ⟨by rw [hmore]; exact hg.pbl, by rw [hmore]; exact hg.elems, ?_, fun _ => ?_, fun _ => rfl⟩
  · rw [malformed, hs, hi, Bool.false_and]
    exact hg.bad.trans hb
  · rw [hsize]
    exact wqeSize_iterate _ _

theorem buildWqe_spec (hb : b.bad = false) : sq.Built wr b (sq.buildWqe b wr) := by
  obtain ⟨wrId, opcode, sgList, signaled, inline⟩ := wr
  cases opcode with
  | rdmaWrite =>
    refine built_of_data hb ?_ rfl rfl rfl
    cases inline <;> rfl
  | rdmaWriteWithImm =>
    unfold buildWqe
    dsimp only
    split
    · next hiw => exact built_reject hiw
    · next hiw =>
      refine built_of_data hb ?_ (eq_false_iff.2 hiw) (if_neg hiw) rfl
      cases inline <;> rfl
  | send => exact built_of_data hb rfl rfl rfl rfl
  | sendWithImm =>
    unfold buildWqe
    dsimp only
    split
    · next hiw => exact built_reject hiw
    · next hiw => exact built_of_data hb rfl (eq_false_iff.2 hiw) (if_neg hiw) rfl
  | rdmaRead =>
    refine built_of_data hb ?_ rfl rfl rfl
    cases inline <;> rfl
  | atomicCmpAndSwp => exact built_atomic hb rfl rfl rfl rfl
  | atomicFetchAndAdd => exact built_atomic hb rfl rfl rfl rfl
  | sendWithInv => exact built_of_data hb rfl rfl rfl rfl
  | rdmaReadWithInv =>
    refine built_of_data hb ?_ rfl rfl rfl
    cases inline <;> rfl
  | localInv => exact ⟨rfl, (append_nil _).symm, hb, fun _ => rfl, fun _ => rfl⟩
  | regMr => exact ⟨rfl, rfl, hb, fun _ => rfl, fun _ => rfl⟩
  | other n => exact built_reject rfl

theorem build_spec (sq : Sq) (wr : IbSendWr) :
    (sq.build wr).pbl = produceN (1 + sq.moreElems wr) sq.wq.pbl ∧
      (sq.build wr).elems = produceList (1 + sq.moreElems wr) sq.wq.pbl ∧
      (sq.build wr).bad = sq.malformed wr ∧
      (sq.unsupported wr = false →
        (sq.build wr).wqeSize = sq.headerSize wr ∧ (sq.build wr).stored = true) := by
  have h : sq.Built wr (start sq.wq.pbl).produce (sq.build wr) := buildWqe_spec rfl
  refine ⟨?_, ?_, h.bad, fun hs => ⟨h.size hs, h.stored hs⟩⟩
  · rw [produceN_add]
    exact h.pbl
  · rw [produceList_add]
    exact h.elems

/-- The two counts of a WR that is not rejected agree, and are within the limit, exactly if it is
fitting. -/
theorem sizes_agree_iff (hgood : sq.malformed wr = false) (hsge : wr.sgList.length ≤ 4)
    (hmax : sq.maxInlineData ≤ 256) :
    1 + sq.moreElems wr = sq.headerSize wr ∧
      1 + sq.moreElems wr ≤ QEDR_MAX_SQE_ELEMENTS_PER_SQE ↔ wr.Fitting := by
  have hlimit : QEDR_MAX_SQE_ELEMENTS_PER_SQE = 18 := rfl
  rw [malformed, or_eq_false_iff] at hgood
  obtain ⟨hs, hlong⟩ := hgood
  have hdata : sq.moreElems wr = 1 + wr.dataElems wr.inlined sq.maxInlineData →
      sq.headerSize wr = (2 + wr.dataElems wr.inlined sq.maxInlineData) % 2 ^ 8 →
      wr.atomic = false →
      (1 + sq.moreElems wr = sq.headerSize wr ∧
        1 + sq.moreElems wr ≤ QEDR_MAX_SQE_ELEMENTS_PER_SQE ↔ wr.Fitting) := by
    intro hmore hsize hatomic
    have hfit : wr.Fitting ↔ (wr.inlined = true → sgeDataLen wr.sgList ≠ 0 → wr.copied < 2 ^ 32) :=
      ⟨fun h => h.inlined, fun h => ⟨fun ha => absurd (hatomic.symm.trans ha) (by decide), h⟩⟩
    rw [hfit, hmore, hsize]
    unfold dataElems
    cases hin : wr.inlined with
    | false =>
      rw [if_neg Bool.false_ne_true]
      refine iff_of_true (by omega) nofun
    | true =>
      rw [hin, Bool.true_and, decide_eq_false_iff_not] at hlong
      have hlen : sgeDataLen wr.sgList = wr.copied % 2 ^ 32 := sgeDataLen_eq wr.sgList
      rw [if_pos rfl]
      by_cases hzero : sgeDataLen wr.sgList = 0
      · rw [if_pos (Or.inr hzero)]
        exact iff_of_true (by decide) fun _ hne => absurd hzero hne
      · rw [if_neg (not_or_intro hlong hzero)]
        unfold QEDR_SQE_ELEMENT_SIZE
        constructor
        · intro hsizes _ _
          omega
        · intro hlt
          have hcopied := hlt rfl hzero
          omega
  have hatomic : sq.moreElems wr = 2 + wr.sgList.length → sq.headerSize wr = 4 →
      wr.atomic = true → wr.inlined = false →
      (1 + sq.moreElems wr = sq.headerSize wr ∧
        1 + sq.moreElems wr ≤ QEDR_MAX_SQE_ELEMENTS_PER_SQE ↔ wr.Fitting) := by
    intro hmore hsize hatomic hin
    have hfit : wr.Fitting ↔ wr.sgList.length = 1 :=
      ⟨fun h => h.atomic hatomic,
        fun h => ⟨fun _ => h, fun hin' => absurd (hin.symm.trans hin') (by decide)⟩⟩
    rw [hfit]
    omega
  obtain ⟨wrId, opcode, sgList, signaled, inline⟩ := wr
  cases opcode with
  | rdmaWrite => exact hdata rfl rfl rfl
  | rdmaWriteWithImm => exact hdata (if_neg (by rw [hs]; nofun)) rfl rfl
  | send => exact hdata rfl rfl rfl
  | sendWithImm => exact hdata (if_neg (by rw [hs]; nofun)) rfl rfl
  | rdmaRead => exact hdata rfl rfl rfl
  | atomicCmpAndSwp => exact hatomic rfl rfl rfl rfl
  | atomicFetchAndAdd => exact hatomic rfl rfl rfl rfl
  | sendWithInv => exact hdata rfl rfl rfl
  | rdmaReadWithInv => exact hdata rfl rfl rfl
  | localInv => exact iff_of_true ⟨rfl, show 1 + 0 ≤ 18 by decide⟩ ⟨nofun, nofun⟩
  | regMr => exact iff_of_true ⟨rfl, show 1 + 1 ≤ 18 by decide⟩ ⟨nofun, nofun⟩
  | other n => exact nomatch (show true = false from hs)

end Sq

end FastLinQ.Qedr
