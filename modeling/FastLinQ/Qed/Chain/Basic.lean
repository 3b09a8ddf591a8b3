import FastLinQ.Foundations.Word

/-!
# The chain of `qed_chain.h`

A chain is a ring of DMA pages that driver and device exchange elements through. The driver
keeps, for the producer and for the consumer alike, three counters that move separately: a
pointer to the next element, a cyclic index of 16 or 32 bits, and, for a chain whose pages are
listed in a side table (PBL), the index of the current page. `ChainSide` is one such triple;
the source spreads it over `p_prod_elem`, `u.chain16.prod_idx` and
`pbl.c.pbl_u16.prod_page_idx` and their consumer and 32-bit siblings.

`ChainShape` and `ChainInfo` are what `qed_chain_init` and the allocation fix once and for all.
Of the memory of the pages only what the chain code itself reads is modelled: `nextMem a` is the
`struct qed_chain_next` stored at address `a`.

`qed_chain_produce` and `qed_chain_consume` are the same code on the two sides, and so are
`qed_chain_set_prod` and `qed_chain_set_cons`; each pair is one function on a `ChainSide`.
-/

namespace FastLinQ.Qed

inductive ChainMode
  | nextPtr
  | single
  | pbl
  deriving DecidableEq, Repr

inductive ChainUseMode
  | toProduce
  | toConsume
  | toConsumeProduce
  deriving DecidableEq, Repr

inductive ChainCntType
  | u16
  | u32
  deriving DecidableEq, Repr

def ChainCntType.bits : ChainCntType → ℕ
  | .u16 => 16
  | .u32 => 32

/-- `struct qed_chain_next`, at the end of every page of a next-pointer chain. -/
structure ChainNext where
  nextPhys : ℕ
  nextVirt : ℕ
  deriving DecidableEq, Repr

/-- `sizeof(struct qed_chain_next)`: a register pair and a pointer. -/
def sizeofChainNext : ℕ := 16

/-- The part of `struct qed_chain` that `qed_chain_init` computes. -/
structure ChainShape where
  capacity : ℕ
  pageCnt : ℕ
  mode : ChainMode
  elemPerPage : ℕ
  elemPerPageMask : ℕ
  elemSize : ℕ
  nextPageMask : ℕ
  usablePerPage : ℕ
  elemUnusable : ℕ
  cntType : ChainCntType
  pageSize : ℕ
  size : ℕ
  intendedUse : ChainUseMode
  deriving DecidableEq, Repr

/-- The part of `struct qed_chain` that no element operation changes: the shape, and the
addresses the allocation adds to it. -/
structure ChainInfo extends ChainShape where
  ppVirtAddrTbl : List ℕ
  pVirtAddr : ℕ
  pPhysAddr : ℕ
  bExternalPbl : Bool
  pblTable : List ℕ
  nextMem : ℕ → ChainNext

/-- The producer's or the consumer's counters. -/
structure ChainSide where
  elem : ℕ
  idx : ℕ
  pageIdx : ℕ
  deriving DecidableEq, Repr

structure Chain extends ChainInfo where
  prod : ChainSide
  cons : ChainSide

instance : Coe Chain ChainInfo := ⟨Chain.toChainInfo⟩

/-- A counter of the chain, after overflow. -/
def ChainShape.wrap (i : ChainShape) (x : ℕ) : ℕ := x % 2 ^ i.cntType.bits

theorem ChainShape.wrap_lt (i : ChainShape) (x : ℕ) : i.wrap x < 2 ^ i.cntType.bits :=
  Nat.mod_lt _ (Nat.two_pow_pos _)

/-! ## Sizes -/

def elemsPerPage (pageSize elemSize : ℕ) : ℕ := pageSize / elemSize

/-- `UNUSABLE_ELEMS_PER_PAGE`: the elements the next pointer covers. -/
def unusableElemsPerPage (elemSize : ℕ) : ChainMode → ℕ
  | .nextPtr => (1 + (sizeofChainNext - 1) / elemSize) % 2 ^ 8
  | .single | .pbl => 0

/-- `USABLE_ELEMS_PER_PAGE`, an unsigned 32-bit difference. -/
def usableElemsPerPage (elemSize pageSize : ℕ) (mode : ChainMode) : ℕ :=
  Word.sub 32 (elemsPerPage pageSize elemSize) (unusableElemsPerPage elemSize mode)

/-- `QED_CHAIN_PAGE_CNT`: `DIV_ROUND_UP` in 32-bit arithmetic. -/
def qedChainPageCnt (elemCnt elemSize pageSize : ℕ) (mode : ChainMode) : ℕ :=
  Word.sub 32 (elemCnt + usableElemsPerPage elemSize pageSize mode) 1 /
    usableElemsPerPage elemSize pageSize mode

/-! ## Moving one side -/

def qedChainAdvancePage (i : ChainInfo) (s : ChainSide) : ChainSide :=
  match i.mode with
  | .nextPtr =>
    { s with elem := (i.nextMem s.elem).nextVirt, idx := i.wrap (s.idx + i.elemUnusable) }
  | .single => { s with elem := i.pVirtAddr }
  | .pbl =>
    let next := i.wrap (s.pageIdx + 1)
    let pageIndex := if next = i.pageCnt then 0 else next
    { s with pageIdx := pageIndex, elem := i.ppVirtAddrTbl.getD pageIndex 0 }

/-- The body that `qed_chain_produce` and `qed_chain_consume` share: the address handed out and
the side after it. -/
def qedChainNextElem (i : ChainInfo) (s : ChainSide) : ℕ × ChainSide :=
  let s :=
    if s.idx &&& i.elemPerPageMask = i.nextPageMask then qedChainAdvancePage i s else s
  (s.elem, { s with idx := i.wrap (s.idx + 1), elem := s.elem + i.elemSize })

/-- `test_and_skip` on one side's index. -/
def testAndSkip (i : ChainInfo) (s : ChainSide) : ChainSide :=
  if s.idx &&& i.elemPerPageMask = i.usablePerPage then
    { s with idx := i.wrap (s.idx + i.elemUnusable) }
  else s

/-- The body that `qed_chain_set_prod` and `qed_chain_set_cons` share. All of the page
arithmetic is done in 32 bits, whatever the width of the counters. -/
def qedChainSetSide (i : ChainInfo) (s : ChainSide) (idx elem : ℕ) : ChainSide :=
  let pageMask := 2 ^ 32 - 1 - i.elemPerPageMask
  let pageDiff :=
    Word.sub 32 (Word.sub 32 s.idx 1 &&& pageMask) (Word.sub 32 idx 1 &&& pageMask) / i.elemPerPage
  let pageIdx :=
    match i.mode with
    | .pbl => i.wrap ((Word.sub 32 s.pageIdx pageDiff + i.pageCnt) % 2 ^ 32 % i.pageCnt)
    | .nextPtr | .single => s.pageIdx
  { elem := elem, idx := i.wrap idx, pageIdx := pageIdx }

/-! ## The chain's operations -/

def qedChainProduce (c : Chain) : ℕ × Chain :=
  let r := qedChainNextElem c c.prod
  (r.1, { c with prod := r.2 })

def qedChainConsume (c : Chain) : ℕ × Chain :=
  let r := qedChainNextElem c c.cons
  (r.1, { c with cons := r.2 })

def qedChainReturnProduced (c : Chain) : Chain :=
  { c with cons := testAndSkip c { c.cons with idx := c.wrap (c.cons.idx + 1) } }

def qedChainRecycleConsumed (c : Chain) : Chain :=
  let s := testAndSkip c c.prod
  { c with prod := { s with idx := c.wrap (s.idx + 1) } }

def qedChainSetProd (c : Chain) (prodIdx pProdElem : ℕ) : Chain :=
  { c with prod := qedChainSetSide c c.prod prodIdx pProdElem }

def qedChainSetCons (c : Chain) (consIdx pConsElem : ℕ) : Chain :=
  { c with cons := qedChainSetSide c c.cons consIdx pConsElem }

def qedChainGetProdIdx (c : Chain) : ℕ := c.prod.idx

/-- The free-space computation for counters of `w` bits: the wrap-around is undone once, and
on a next-pointer chain one slot is taken off for every page between the two indices. -/
def qedChainElemLeft (w : ℕ) (c : Chain) : ℕ :=
  let cons := c.cons.idx
  let prod := if c.prod.idx < cons then c.prod.idx + 2 ^ w else c.prod.idx
  let used := (prod - cons) % 2 ^ w
  let used :=
    match c.mode with
    | .nextPtr => Word.sub w used (prod / c.elemPerPage - cons / c.elemPerPage)
    | .single | .pbl => used
  Word.sub w c.capacity used

def qedChainGetElemLeft (c : Chain) : ℕ := qedChainElemLeft 16 c

def qedChainGetElemLeftU32 (c : Chain) : ℕ := qedChainElemLeft 32 c

/-- One side after `qed_chain_reset`: a page index starts on the last page. -/
def ChainInfo.resetSide (i : ChainInfo) (s : ChainSide) : ChainSide :=
  { elem := i.pVirtAddr
    idx := 0
    pageIdx :=
      match i.mode with
      | .pbl => i.wrap (Word.sub 32 i.pageCnt 1)
      | .nextPtr | .single => s.pageIdx }

/-- `qed_chain_reset`. A chain that is used to consume starts full: its producer index is moved
over the whole chain, its producer pointer is not. -/
def qedChainReset (c : Chain) : Chain :=
  let c₀ : Chain := { c with prod := c.resetSide c.prod, cons := c.resetSide c.cons }
  match c.intendedUse with
  | .toConsume => qedChainRecycleConsumed^[c.capacity] c₀
  | .toProduce | .toConsumeProduce => c₀

/-- `qed_chain_init`. The element size arrives as a byte; the per-page numbers are kept in 16
bits and the totals in 32. -/
def qedChainInit (pageCnt elemSize pageSize : ℕ) (intendedUse : ChainUseMode) (mode : ChainMode)
    (cntType : ChainCntType) : Chain :=
  let elemPerPage := elemsPerPage pageSize elemSize % 2 ^ 16
  let usablePerPage := usableElemsPerPage elemSize pageSize mode % 2 ^ 16
  let elemPerPageMask := Word.sub 16 elemPerPage 1
  { ppVirtAddrTbl := []
    capacity := usablePerPage * pageCnt % 2 ^ 32
    pageCnt := pageCnt
    mode := mode
    elemPerPage := elemPerPage
    elemPerPageMask := elemPerPageMask
    elemSize := elemSize
    nextPageMask := usablePerPage &&& elemPerPageMask
    usablePerPage := usablePerPage
    elemUnusable := unusableElemsPerPage elemSize mode
    cntType := cntType
    pageSize := pageSize
    pVirtAddr := 0
    pPhysAddr := 0
    size := elemPerPage * pageCnt % 2 ^ 32
    intendedUse := intendedUse
    bExternalPbl := false
    pblTable := []
    nextMem := fun _ => ⟨0, 0⟩
    prod := ⟨0, 0, 0⟩
    cons := ⟨0, 0, 0⟩ }

/-! ## What the operations leave alone -/

section Frame

variable (c : Chain) (a b : ℕ)

@[simp] theorem qedChainRecycleConsumed_info :
    (qedChainRecycleConsumed c).toChainInfo = c.toChainInfo := rfl

@[simp] theorem qedChainRecycleConsumed_cons : (qedChainRecycleConsumed c).cons = c.cons := rfl

@[simp] theorem recycle_iterate_info (n : ℕ) :
    (qedChainRecycleConsumed^[n] c).toChainInfo = c.toChainInfo := by
  induction n with
  | zero => rfl
  | succ n ih => rw [Function.iterate_succ_apply', qedChainRecycleConsumed_info, ih]

@[simp] theorem recycle_iterate_cons (n : ℕ) : (qedChainRecycleConsumed^[n] c).cons = c.cons := by
  induction n with
  | zero => rfl
  | succ n ih => rw [Function.iterate_succ_apply', qedChainRecycleConsumed_cons, ih]

@[simp] theorem qedChainReset_info : (qedChainReset c).toChainInfo = c.toChainInfo := by
  unfold qedChainReset
  cases c.intendedUse <;> simp

theorem qedChainReset_cons : (qedChainReset c).cons = c.resetSide c.cons := by
  unfold qedChainReset
  cases c.intendedUse <;> simp

end Frame

end FastLinQ.Qed
