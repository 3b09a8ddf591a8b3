import FastLinQ.Qed.Chain.Basic

/-!
# Allocating a chain

`qed_chain_alloc` computes the number of pages, checks the size of the chain against the width
of its counters, initialises the fixed parameters and then allocates the pages of the chosen
mode. The allocators themselves are the kernel's; `DmaEnv` holds the answers they give to one
call of `qed_chain_alloc`, a page at a time.

An error is one of the two codes the driver returns, or `fault` where the C code leaves the
outcome undefined: a division by zero in the size macros, or a store outside of the memory that
was just allocated (the next pointer of a page that cannot hold one, a page table whose byte
size overflowed 32 bits). A chain is *admitted* when the result is `.ok`.
-/

namespace FastLinQ.Qed

open List Function Nat Except

inductive AllocErr
  | einval
  | enomem
  | fault
  deriving DecidableEq, Repr

structure DmaBlock where
  virt : ℕ
  phys : ℕ
  deriving DecidableEq, Repr

/-- The answers of the kernel's allocators during one `qed_chain_alloc`. -/
structure DmaEnv where
  /-- `dma_alloc_coherent` for page `k` of the chain. -/
  page : ℕ → Option DmaBlock
  /-- Whether `vzalloc` finds memory for the table of virtual addresses. -/
  tbl : Bool
  /-- `dma_alloc_coherent` for the table of physical addresses. -/
  pbl : Option DmaBlock

def DmaEnv.addr (env : DmaEnv) (k : ℕ) : ℕ := ((env.page k).map DmaBlock.virt).getD 0

/-- What `dma_alloc_coherent` promises: the buffers of `sz` bytes it returns do not overlap. -/
def DmaEnv.Disjoint (env : DmaEnv) (sz n : ℕ) : Prop :=
  ∀ j < n, ∀ k < n, j ≠ k → env.addr j + sz ≤ env.addr k ∨ env.addr k + sz ≤ env.addr j

/-- Buffers of `sz` bytes one behind the other, the table of physical addresses first. -/
def DmaEnv.backToBack (start sz : ℕ) : DmaEnv where
  page k := some ⟨start + (k + 1) * sz, start + (k + 1) * sz⟩
  tbl := true
  pbl := some ⟨start, start⟩

theorem DmaEnv.backToBack_disjoint (start sz n : ℕ) :
    (DmaEnv.backToBack start sz).Disjoint sz n := by
  intro j _ k _ hjk
  have hle : ∀ {j k}, j < k → start + (j + 1) * sz + sz ≤ start + (k + 1) * sz := fun {j k} h => by
    have := Nat.mul_le_mul_right sz (show j + 1 + 1 ≤ k + 1 by omega)
    rw [succ_mul] at this
    omega
  exact (Nat.lt_or_gt_of_ne hjk).imp hle hle

structure ChainParams where
  intendedUse : ChainUseMode
  mode : ChainMode
  cntType : ChainCntType
  numElems : ℕ
  elemSize : ℕ
  pageSize : ℕ
  extPbl : Option DmaBlock
  deriving DecidableEq, Repr

def QED_CHAIN_PAGE_SIZE : ℕ := 0x1000

/-- `QED_CHAIN_PBL_ENTRY_SIZE`, which is also the size of a pointer in the table of virtual
addresses. -/
def QED_CHAIN_PBL_ENTRY_SIZE : ℕ := 8

def qedChainParamsInit (intendedUse : ChainUseMode) (mode : ChainMode) (cntType : ChainCntType)
    (numElems elemSize : ℕ) : ChainParams :=
  { intendedUse, mode, cntType, numElems, elemSize
    pageSize := QED_CHAIN_PAGE_SIZE
    extPbl := none }

/-- `qed_chain_alloc_sanity_check` returns zero. -/
def qedChainAllocSanityCheck (cntType : ChainCntType) (elemSize pageSize pageCnt : ℕ) : Bool :=
  let chainSize := elemsPerPage pageSize elemSize * pageCnt
  match cntType with
  | .u16 => decide (chainSize ≤ 2 ^ 16)
  | .u32 => decide (chainSize < 2 ^ 32)

/-- The slots of an admitted chain fit its counters. -/
theorem sanityCheck_le {cnt : ChainCntType} {elemSize pageSize pageCnt : ℕ}
    (h : qedChainAllocSanityCheck cnt elemSize pageSize pageCnt = true) :
    elemsPerPage pageSize elemSize * pageCnt ≤ 2 ^ cnt.bits ∧
      (cnt = .u32 → elemsPerPage pageSize elemSize * pageCnt < 2 ^ 32) := by
  cases cnt with
  | u16 => exact ⟨of_decide_eq_true h, fun hc => by cases hc⟩
  | u32 => exact ⟨(of_decide_eq_true h).le, fun _ => of_decide_eq_true h⟩

def qedChainInitMem (c : Chain) (b : DmaBlock) : Chain :=
  { c with pVirtAddr := b.virt, pPhysAddr := b.phys }

/-- `qed_chain_init_next_ptr_elem`. The store must stay inside the page it starts in. -/
def qedChainInitNextPtrElem (c : Chain) (virtCurr : ℕ) (next : DmaBlock) :
    Except AllocErr Chain :=
  let size := c.elemSize * c.usablePerPage
  if size + sizeofChainNext ≤ c.pageSize then
    .ok { c with
      nextMem := Function.update c.nextMem (virtCurr + size) ⟨next.phys, next.virt⟩ }
  else .error .fault

/-- The loop of `qed_chain_alloc_next_ptr` after iteration `k`: the chain, and the page that was
allocated last. -/
def nextPtrPages (env : DmaEnv) (c : Chain) : ℕ → Except AllocErr (Chain × DmaBlock)
  | 0 =>
    match env.page 0 with
    | none => .error .enomem
    | some b => .ok (qedChainReset (qedChainInitMem c b), b)
  | k + 1 =>
    match nextPtrPages env c k with
    | .error e => .error e
    | .ok (c', prev) =>
      match env.page (k + 1) with
      | none => .error .enomem
      | some b =>
        match qedChainInitNextPtrElem c' prev.virt b with
        | .error e => .error e
        | .ok c'' => .ok (c'', b)

/-- `qed_chain_alloc_next_ptr`. The next pointer of the last page closes the ring. -/
def qedChainAllocNextPtr (env : DmaEnv) (c : Chain) : Except AllocErr Chain :=
  if c.pageCnt = 0 then .error .einval
  else
    match nextPtrPages env c (c.pageCnt - 1) with
    | .error e => .error e
    | .ok (c', prev) => qedChainInitNextPtrElem c' prev.virt ⟨c'.pVirtAddr, c'.pPhysAddr⟩

def qedChainAllocSingle (env : DmaEnv) (c : Chain) : Except AllocErr Chain :=
  match env.page 0 with
  | none => .error .enomem
  | some b => .ok (qedChainReset (qedChainInitMem c b))

/-- The loop of `qed_chain_alloc_pbl` over the first `n` pages, with tables of `size` bytes. -/
def pblPages (env : DmaEnv) (size : ℕ) (c : Chain) : ℕ → Except AllocErr Chain
  | 0 => .ok c
  | n + 1 =>
    match pblPages env size c n with
    | .error e => .error e
    | .ok c' =>
      match env.page n with
      | none => .error .enomem
      | some b =>
        let c' := if n = 0 then qedChainReset (qedChainInitMem c' b) else c'
        if (n + 1) * QED_CHAIN_PBL_ENTRY_SIZE ≤ size then
          .ok { c' with
            ppVirtAddrTbl := c'.ppVirtAddrTbl ++ [b.virt]
            pblTable := c'.pblTable ++ [b.phys] }
        else .error .fault

/-- `qed_chain_alloc_pbl`. Both tables have the same byte size, computed in 32 bits, and
`vzalloc` of nothing fails. -/
def qedChainAllocPbl (env : DmaEnv) (c : Chain) (extPbl : Option DmaBlock) :
    Except AllocErr Chain :=
  let size := c.pageCnt * QED_CHAIN_PBL_ENTRY_SIZE % 2 ^ 32
  if env.tbl = false ∨ size = 0 then .error .enomem
  else
    match extPbl.or env.pbl with
    | none => .error .enomem
    | some b =>
      if b.virt = 0 then .error .enomem
      else pblPages env size { c with bExternalPbl := extPbl.isSome } c.pageCnt

/-- The number of pages `qed_chain_alloc` asks for. -/
def ChainParams.pageCnt (p : ChainParams) : ℕ :=
  match p.mode with
  | .single => 1
  | .nextPtr | .pbl => qedChainPageCnt p.numElems p.elemSize p.pageSize p.mode

/-- The chain `qed_chain_alloc` initialises: the element size is cut to a byte on the way. -/
def ChainParams.init (p : ChainParams) : Chain :=
  qedChainInit p.pageCnt (p.elemSize % 2 ^ 8) p.pageSize p.intendedUse p.mode p.cntType

def qedChainAlloc (env : DmaEnv) (p : ChainParams) : Except AllocErr Chain :=
  if p.elemSize = 0 ∨ (p.mode ≠ .single ∧ usableElemsPerPage p.elemSize p.pageSize p.mode = 0) then
    .error .fault
  else if qedChainAllocSanityCheck p.cntType p.elemSize p.pageSize p.pageCnt = false then
    .error .einval
  else if p.elemSize % 2 ^ 8 = 0 then .error .fault
  else
    match p.mode with
    | .nextPtr => qedChainAllocNextPtr env p.init
    | .single => qedChainAllocSingle env p.init
    | .pbl => qedChainAllocPbl env p.init p.extPbl

/-! ## What an admitted chain looks like -/

theorem exists_of_map_ok {α β ε : Type*} {f : α → β} {r : Except ε α} {b : β}
    (h : r.map f = .ok b) : ∃ a, r = .ok a ∧ b = f a := by
  cases r with
  | error e => cases h
  | ok a => exact ⟨a, rfl, (ok.inj h).symm⟩

/-- The pages of the chain form a ring with page `k` at `base k`, linked the way the chain's
mode links pages. -/
structure ChainInfo.Linked (i : ChainInfo) (base : ℕ → ℕ) : Prop where
  pageCnt_pos : 0 < i.pageCnt
  first : i.pVirtAddr = base 0
  next : i.mode = .nextPtr → ∀ k < i.pageCnt,
    (i.nextMem (base k + i.elemSize * i.usablePerPage)).nextVirt = base ((k + 1) % i.pageCnt)
  one : i.mode = .single → i.pageCnt = 1
  tbl : i.mode = .pbl → ∀ k < i.pageCnt, i.ppVirtAddrTbl.getD k 0 = base k
  pageCnt_lt : i.mode = .pbl → i.pageCnt < 2 ^ 29

variable {env : DmaEnv}

theorem addr_eq_of_page {k : ℕ} {b : DmaBlock} (h : env.page k = some b) : env.addr k = b.virt := by
  simp [DmaEnv.addr, h]

variable {c c' : Chain}

theorem initNextPtrElem_ok {a : ℕ} {b : DmaBlock} (h : qedChainInitNextPtrElem c a b = .ok c') :
    c.elemSize * c.usablePerPage + sizeofChainNext ≤ c.pageSize ∧ c' = { c with
        nextMem :=
          Function.update c.nextMem (a + c.elemSize * c.usablePerPage) ⟨b.phys, b.virt⟩ } := by
  simp only [qedChainInitNextPtrElem] at h
  split at h
  · rename_i hsz
    exact ⟨hsz, (ok.inj h).symm⟩
  · cases h

/-- The invariant of the loop of `qed_chain_alloc_next_ptr`: after iteration `k` the pages up
to `k` are linked, in order. -/
structure NextPtrLoop (env : DmaEnv) (c c' : Chain) (prev : DmaBlock) (k : ℕ) : Prop where
  shape : c'.toChainShape = c.toChainShape
  virt : c'.pVirtAddr = env.addr 0
  last : prev.virt = env.addr k
  linked : ∀ j < k,
    (c'.nextMem (env.addr j + c.elemSize * c.usablePerPage)).nextVirt = env.addr (j + 1)

theorem nextPtrPages_ok {c : Chain} {n : ℕ} (hpos : 0 < c.pageSize)
    (hd : env.Disjoint c.pageSize n) :
    ∀ {k : ℕ} {c' : Chain} {prev : DmaBlock}, k < n →
      nextPtrPages env c k = .ok (c', prev) → NextPtrLoop env c c' prev k
  | 0, c', prev, _, h => by
    unfold nextPtrPages at h
    cases hp : env.page 0 with
    | none => simp [hp] at h
    | some b =>
      simp only [hp, ok.injEq, Prod.mk.injEq] at h
      obtain ⟨rfl, rfl⟩ := h
      refine ⟨?_, ?_, (addr_eq_of_page hp).symm, by omega⟩
      · rw [qedChainReset_info]
        rfl
      · rw [qedChainReset_info]
        exact (addr_eq_of_page hp).symm
  | k + 1, c', prev, hk, h => by
    unfold nextPtrPages at h
    cases hl : nextPtrPages env c k with
    | error e => simp [hl] at h
    | ok r =>
      obtain ⟨c₁, prev₁⟩ := r
      have ih := nextPtrPages_ok hpos hd (by omega) hl
      simp only [hl] at h
      cases hp : env.page (k + 1) with
      | none => simp [hp] at h
      | some b =>
        simp only [hp] at h
        cases hi : qedChainInitNextPtrElem c₁ prev₁.virt b with
        | error e => simp [hi] at h
        | ok c₂ =>
          simp only [hi, ok.injEq, Prod.mk.injEq] at h
          obtain ⟨rfl, rfl⟩ := h
          obtain ⟨-, rfl⟩ := initNextPtrElem_ok hi
          have hs := ih.shape
          refine ⟨hs, ih.virt, (addr_eq_of_page hp).symm, fun j hj => ?_⟩
          simp only [hs, ih.last]
          -- the store of this iteration hits page `k` and no page before it
          by_cases hjk : j = k
          · subst hjk
            rw [update_self]
            exact (addr_eq_of_page hp).symm
          · have hne := hd j (by omega) k (by omega) hjk
            rw [update_of_ne (by omega)]
            exact ih.linked j (by omega)

theorem linked_of_allocNextPtr (hm : c.mode = .nextPtr) (hpos : 0 < c.pageSize)
    (hd : env.Disjoint c.pageSize c.pageCnt) (h : qedChainAllocNextPtr env c = .ok c') :
    c'.toChainShape = c.toChainShape ∧ c'.Linked env.addr ∧
      c.elemSize * c.usablePerPage + sizeofChainNext ≤ c.pageSize := by
  unfold qedChainAllocNextPtr at h
  split at h
  · cases h
  · cases hl : nextPtrPages env c (c.pageCnt - 1) with
    | error e => simp [hl] at h
    | ok r =>
      have inv := nextPtrPages_ok hpos hd (by omega) hl
      simp only [hl] at h
      obtain ⟨hsz, rfl⟩ := initNextPtrElem_ok h
      have hs := inv.shape
      rw [hs] at hsz
      refine ⟨hs, ⟨?_, inv.virt, ?_, ?_, ?_, ?_⟩, hsz⟩
      · simp only [hs]
        omega
      · intro _ k hk
        simp only [hs, inv.last] at hk ⊢
        by_cases hlast : k = c.pageCnt - 1
        · subst hlast
          rw [update_self, show c.pageCnt - 1 + 1 = c.pageCnt by omega, mod_self]
          exact inv.virt
        · have hne := hd k hk (c.pageCnt - 1) (by omega) hlast
          rw [update_of_ne (by omega), mod_eq_of_lt (by omega)]
          exact inv.linked k (by omega)
      all_goals
        intro hmode
        simp only [hs, hm, reduceCtorEq] at hmode

/-- The invariant of the loop of `qed_chain_alloc_pbl`. -/
structure PblLoop (env : DmaEnv) (size : ℕ) (c c' : Chain) (n : ℕ) : Prop where
  shape : c'.toChainShape = c.toChainShape
  virt : 0 < n → c'.pVirtAddr = env.addr 0
  tbl : c'.ppVirtAddrTbl = c.ppVirtAddrTbl ++ (List.range n).map env.addr
  fits : n * QED_CHAIN_PBL_ENTRY_SIZE ≤ size
  sides : 0 < n → ∃ d : Chain, d.toChainShape = c.toChainShape ∧
    c'.prod = (qedChainReset d).prod ∧ c'.cons = (qedChainReset d).cons

theorem pblPages_ok {size : ℕ} {c : Chain} :
    ∀ {n : ℕ} {c' : Chain}, pblPages env size c n = .ok c' → PblLoop env size c c' n
  | 0, c', h => by
    obtain rfl := ok.inj h
    exact ⟨rfl, by omega, by simp, by simp, by omega⟩
  | n + 1, c', h => by
    unfold pblPages at h
    cases hl : pblPages env size c n with
    | error e => simp [hl] at h
    | ok c₁ =>
      have ih := pblPages_ok hl
      have hs := ih.shape
      simp only [hl] at h
      cases hp : env.page n with
      | none => simp [hp] at h
      | some b =>
        simp only [hp] at h
        split at h
        · rename_i hfit
          obtain rfl := ok.inj h
          have haddr := addr_eq_of_page hp
          refine ⟨?_, fun _ => ?_, ?_, hfit, fun _ => ?_⟩
          · split
            · rw [qedChainReset_info]
              exact hs
            · exact hs
          · by_cases hn : n = 0
            · subst hn
              simp only [↓reduceIte, qedChainReset_info]
              exact haddr.symm
            · simp only [hn, ↓reduceIte]
              exact ih.virt (by omega)
          · rw [range_succ, map_append, map_singleton, ← append_assoc, ← ih.tbl, haddr]
            split
            · rw [qedChainReset_info]
              rfl
            · rfl
          · by_cases hn : n = 0
            · exact ⟨qedChainInitMem c₁ b, hs, by simp [hn], by simp [hn]⟩
            · simp only [hn, ↓reduceIte]
              exact ih.sides (by omega)
        · cases h

/-- A successful `qed_chain_alloc_pbl` went through its whole loop. -/
theorem allocPbl_ok {ext : Option DmaBlock} (h : qedChainAllocPbl env c ext = .ok c') :
    0 < c.pageCnt ∧ PblLoop env (c.pageCnt * QED_CHAIN_PBL_ENTRY_SIZE % 2 ^ 32)
      { c with bExternalPbl := ext.isSome } c' c.pageCnt := by
  simp only [qedChainAllocPbl] at h
  split at h
  · cases h
  · rename_i hsz
    simp only [not_or] at hsz
    cases hb : ext.or env.pbl with
    | none => simp [hb] at h
    | some b =>
      simp only [hb] at h
      split at h
      · cases h
      · refine ⟨?_, pblPages_ok h⟩
        by_contra hc
        exact hsz.2 (by simp [show c.pageCnt = 0 by omega])

theorem linked_of_allocPbl {ext : Option DmaBlock} (hm : c.mode = .pbl)
    (htbl : c.ppVirtAddrTbl = []) (h : qedChainAllocPbl env c ext = .ok c') :
    c'.toChainShape = c.toChainShape ∧ c'.Linked env.addr := by
  obtain ⟨hN, inv⟩ := allocPbl_ok h
  have hs := inv.shape
  have hfit := inv.fits
  have hmod := Nat.mod_lt (c.pageCnt * QED_CHAIN_PBL_ENTRY_SIZE) (Nat.two_pow_pos 32)
  simp only [QED_CHAIN_PBL_ENTRY_SIZE] at hfit hmod
  refine ⟨hs, ⟨by rw [hs]; exact hN, inv.virt hN, ?_, ?_, ?_, ?_⟩⟩
  · intro hmode
    rw [hs] at hmode
    simp [hm] at hmode
  · intro hmode
    rw [hs] at hmode
    simp [hm] at hmode
  · intro _ k hk
    rw [hs] at hk
    rw [inv.tbl, htbl, getD_eq_getElem _ _ (by simpa using hk)]
    simp
  · intro _
    rw [hs]
    change c.pageCnt < _
    omega

theorem alloc_ok {p : ChainParams} {c : Chain} (h : qedChainAlloc env p = .ok c) :
    p.elemSize % 2 ^ 8 ≠ 0 ∧
      (p.mode = .single ∨ usableElemsPerPage p.elemSize p.pageSize p.mode ≠ 0) ∧
      qedChainAllocSanityCheck p.cntType p.elemSize p.pageSize p.pageCnt = true ∧
      (match p.mode with
        | .nextPtr => qedChainAllocNextPtr env p.init
        | .single => qedChainAllocSingle env p.init
        | .pbl => qedChainAllocPbl env p.init p.extPbl) = .ok c := by
  unfold qedChainAlloc at h
  split at h
  · cases h
  · rename_i h₀
    split at h
    · cases h
    · rename_i h₁
      split at h
      · cases h
      · rename_i h₂
        simp only [not_or, not_and_or, not_not] at h₀
        exact ⟨h₂, h₀.2, by simpa using h₁, h⟩

/-- **The pages of an admitted chain form a ring.** The parameters are those of
`qed_chain_init`, and on a next-pointer chain a page has room for its next pointer. -/
theorem linked_of_alloc {p : ChainParams} {c : Chain} (hpos : 0 < p.pageSize)
    (hd : env.Disjoint p.pageSize p.pageCnt) (h : qedChainAlloc env p = .ok c) :
    c.toChainShape = p.init.toChainShape ∧ c.Linked env.addr ∧
      (p.mode = .nextPtr → c.elemSize * c.usablePerPage + sizeofChainNext ≤ c.pageSize) := by
  obtain ⟨-, -, -, hok⟩ := alloc_ok h
  cases hm : p.mode with
  | nextPtr =>
    simp only [hm] at hok
    obtain ⟨hs, hl, hsz⟩ := linked_of_allocNextPtr (by exact hm) (by exact hpos) (by exact hd) hok
    refine ⟨hs, hl, fun _ => ?_⟩
    rw [hs]
    exact hsz
  | single =>
    simp only [hm, qedChainAllocSingle] at hok
    cases hp : env.page 0 with
    | none => simp [hp] at hok
    | some b =>
      simp only [hp] at hok
      obtain rfl := ok.inj hok
      have hmode : p.init.mode = .single := hm
      have hcnt : p.init.pageCnt = 1 := by
        show p.pageCnt = 1
        simp [ChainParams.pageCnt, hm]
      rw [qedChainReset_info]
      refine ⟨rfl, ⟨by show 0 < p.init.pageCnt; omega, (addr_eq_of_page hp).symm, fun hc => ?_,
          fun _ => hcnt, fun hc => ?_, fun hc => ?_⟩, by simp⟩
      all_goals
        change p.init.mode = _ at hc
        rw [hmode] at hc
        cases hc
  | pbl =>
    simp only [hm] at hok
    obtain ⟨hs, hl⟩ := linked_of_allocPbl (by exact hm) rfl hok
    exact ⟨hs, hl, by simp⟩

end FastLinQ.Qed
