import FastLinQ.Foundations.Cyclic
import FastLinQ.Qede.Rx.Basic
import FastLinQ.Qede.Tx.Accounting

/-!
# Who has a page

The pages of a receive queue are on the receive ring, in the pool, on the XDP transmit ring, or in
socket buffers. `Owns q posted pool hand` says that the lists `posted` and `pool` and the pages to
be sent have nothing in common, that the reference counts are exact, and that a posted segment lies
behind all parts of its page that the stack has or will get. `hand` are the parts of a socket buffer
that is being built.
-/

namespace FastLinQ.Qede

open FastLinQ.Qed Shares Function List Nat RxQueue AggInfo

/-! ## The pool and the XDP ring -/

def PoolAt (pool : PagePool) (l : List ℕ) : Prop :=
  ∃ e, pool.size = 2 ^ e ∧ Cyclic pool.size pool.size pool.pages pool.prod pool.cons l ∧
    l.length < pool.size

namespace PoolAt

variable {pool : PagePool} {l : List ℕ}

theorem next_eq (h : PoolAt pool l) (i : ℕ) : pool.next i = (i + 1) % pool.size := by
  obtain ⟨e, hsize, -, -⟩ := h
  rw [PagePool.next, hsize, and_two_pow_sub_one_eq_mod]

theorem start (num : ℕ) (pages : ℕ → ℕ) : PoolAt ⟨2 ^ log2 num, 0, 0, pages⟩ [] :=
  ⟨_, rfl, .nil _ _ _, Nat.two_pow_pos _⟩

theorem take (h : PoolAt pool l) (hne : pool.cons ≠ pool.prod) :
    ∃ l', l = pool.pages pool.cons :: l' ∧ PoolAt { pool with cons := pool.next pool.cons } l' := by
  have hnext := h.next_eq pool.cons
  obtain ⟨e, hsize, hc, hlen⟩ := h
  cases l with
  | nil => exact absurd ((hc.empty_iff hlen).2 rfl) hne
  | cons p l =>
    obtain ⟨hp, hpop⟩ := hc.pop dvd_rfl
    rw [hc.cons_mod] at hp
    rw [← hnext] at hpop
    exact ⟨l, by rw [hp], e, hsize, hpop, (lt_succ_self _).trans hlen⟩

theorem add (h : PoolAt pool l) (hroom : pool.next pool.prod ≠ pool.cons) (page : ℕ) :
    PoolAt { pool with
      pages := update pool.pages pool.prod page
      prod := pool.next pool.prod } (l ++ [page]) := by
  rw [h.next_eq] at hroom ⊢
  obtain ⟨e, hsize, hc, hlen⟩ := h
  have hpush := hc.push dvd_rfl hlen page
  rw [hc.prod_mod] at hpush
  refine ⟨e, hsize, hpush, ?_⟩
  rw [length_append]
  exact lt_of_le_of_ne hlen fun hlast => hroom ((hc.last_iff hlen).2 hlast)

end PoolAt

/-- The XDP ring holds the pages of a list. -/
structure XdpAt (num : ℕ) (t : XdpTxq) (l : List ℕ) : Prop where
  chain : ∃ base K, TxRing t.txPbl base ∧
    PblAt t.txPbl base t.txPbl.prod (K + l.length) ∧
    PblAt t.txPbl base t.txPbl.cons K
  le_capacity : l.length ≤ t.txPbl.capacity
  slots : Cyclic num num t.xdp t.swTxProd t.swTxCons l

namespace XdpAt

variable {num : ℕ} {t : XdpTxq} {l : List ℕ}

theorem elemLeft (h : XdpAt num t l) :
    qedChainGetElemLeft t.txPbl = t.txPbl.capacity - l.length := by
  obtain ⟨base, K, T, hprod, hcons⟩ := h.chain
  exact elemLeft_eq_sub T hprod hcons h.le_capacity

theorem push (h : XdpAt num t l) (hleft : qedChainGetElemLeft t.txPbl ≠ 0) (hfree : l.length < num)
    (page : ℕ) :
    XdpAt num
      { t with
        txPbl := (qedChainProduce t.txPbl).2
        xdp := update t.xdp t.swTxProd page
        swTxProd := (t.swTxProd + 1) % num } (l ++ [page]) := by
  have hpush := h.slots.push dvd_rfl hfree page
  rw [h.slots.prod_mod] at hpush
  rw [h.elemLeft] at hleft
  obtain ⟨base, K, T, hprod, hcons⟩ := h.chain
  refine ⟨⟨base, K, T, ?_, hcons⟩, ?_, hpush⟩
  · rw [length_append]
    exact (PblAt.next T.ring T.mode hprod).2
  · rw [length_append, length_singleton]
    change _ ≤ t.txPbl.capacity
    omega

theorem pop {page : ℕ} (h : XdpAt num t (page :: l)) :
    t.xdp t.swTxCons = page ∧ XdpAt num
        { t with
          txPbl := (qedChainConsume t.txPbl).2
          swTxCons := (t.swTxCons + 1) % num } l := by
  obtain ⟨hpage, hpop⟩ := h.slots.pop dvd_rfl
  rw [h.slots.cons_mod] at hpage
  obtain ⟨base, K, T, hprod, hcons⟩ := h.chain
  refine ⟨hpage, ⟨base, K + 1, T, ?_, (PblAt.next T.ring T.mode hcons).2⟩, ?_, hpop⟩
  · rw [length_cons, add_left_comm, add_comm] at hprod
    exact hprod
  · exact (le_succ _).trans h.le_capacity

end XdpAt

/-! ## Holders -/

structure Seg where
  page : ℕ
  off : ℕ

def Seg.entry (b : Seg) : SwRxData := ⟨some b.page, b.off⟩

/-- The pages of socket buffers, one for each reference. -/
def skbPages (l : List RxSkb) : Multiset ℕ := (l.flatMap RxSkb.pages : List ℕ)

theorem skbPages_append (l r : List RxSkb) : skbPages (l ++ r) = skbPages l + skbPages r := by
  rw [skbPages, flatMap_append]
  rfl

theorem skbPages_singleton (skb : RxSkb) : skbPages [skb] = skb.pages := by
  rw [skbPages, flatMap_singleton]

def AggInfo.pages (info : AggInfo) : Multiset ℕ := skbPages info.skb.toList

/-- An aggregation that has begun has a socket buffer, one that has ended has none. -/
structure AggInfo.Sound (info : AggInfo) : Prop where
  started : info.state = .start → info.skb ≠ none
  ended : info.state = .none → info.skb = none

theorem AggInfo.pages_of_none (info : AggInfo) (state : AggState) :
    pages { info with state := state, skb := none } = 0 := rfl

@[irreducible] def aggPages (tpaInfo : ℕ → AggInfo) : Multiset ℕ :=
  ∑ a ∈ Finset.range ETH_TPA_MAX_AGGS_NUM, (tpaInfo a).pages

theorem aggPages_update {a : ℕ} (ha : a < ETH_TPA_MAX_AGGS_NUM) (tpaInfo : ℕ → AggInfo)
    (info : AggInfo) :
    aggPages (update tpaInfo a info) + (tpaInfo a).pages = info.pages + aggPages tpaInfo := by
  have hpages : (fun j => (update tpaInfo a info j).pages) =
      update (fun j => (tpaInfo j).pages) a info.pages :=
    funext (apply_update (fun _ => pages) tpaInfo a info)
  have hsum := sum_update ha (fun a => (tpaInfo a).pages) info.pages
  rw [← hpages] at hsum
  unfold aggPages
  exact hsum

namespace RxQueue

def held (q : RxQueue) (posted : List Seg) (pool : List ℕ) (hand : List PagePart) : Multiset ℕ :=
  (posted.map Seg.page : List ℕ) + pool + q.pending + (hand.map PagePart.page : List ℕ) +
    skbPages q.stack + skbPages q.lost + aggPages q.tpaInfo

/-- The stack has the part, or will get it with an aggregation. -/
def Live (q : RxQueue) (part : PagePart) : Prop :=
  (∃ skb ∈ q.stack, part ∈ skb.parts) ∨
    ∃ a < ETH_TPA_MAX_AGGS_NUM, ∃ skb, (q.tpaInfo a).state = .start ∧
      (q.tpaInfo a).skb = some skb ∧ part ∈ skb.parts

end RxQueue

theorem mem_skbPages {l : List RxSkb} {skb : RxSkb} {part : PagePart} (hskb : skb ∈ l)
    (hpart : part ∈ skb.parts) : part.page ∈ skbPages l :=
  Multiset.mem_coe.2 (mem_flatMap.2 ⟨skb, hskb, mem_map_of_mem hpart⟩)

/-- **Who has which page.** -/
structure Owns (q : RxQueue) (posted : List Seg) (pool : List ℕ) (hand : List PagePart) : Prop where
  pooled : PoolAt q.pagePool pool
  xdp : XdpAt q.cfg.numTxBuffers q.xdpTx q.pending
  segs : ∀ b ∈ posted, q.cfg.rxBufSegSize ∣ b.off ∧ b.off < q.cfg.pageSize
  nodup : (posted.map Seg.page ++ pool ++ q.pending).Nodup
  refs : Exact q.refs (q.held posted pool hand)
  apart : ∀ b ∈ posted, ∀ part, part ∈ hand ∨ q.Live part → part.page = b.page → part.hi ≤ b.off
  aggs : ∀ a, (q.tpaInfo a).Sound
  clean : q.takenClean = true

namespace Owns

variable {q q' : RxQueue} {posted : List Seg} {pool : List ℕ} {hand : List PagePart} {page : ℕ}

variable {part : PagePart}

/-- The page of a part that the stack has or will get is held by a socket buffer. -/
theorem live_mem (h : part ∈ hand ∨ q.Live part) :
    part.page ∈ (hand.map PagePart.page : Multiset ℕ) + skbPages q.stack + aggPages q.tpaInfo := by
  rw [Multiset.mem_add, Multiset.mem_add]
  rcases h with h | ⟨skb, hskb, hpart⟩ | ⟨a, ha, skb, -, hskb, hpart⟩
  · exact .inl (.inl (Multiset.mem_coe.2 (mem_map_of_mem h)))
  · exact .inl (.inr (mem_skbPages hskb hpart))
  · have hmem : part.page ∈ (q.tpaInfo a).pages := by
      rw [pages, hskb]
      exact mem_skbPages (mem_singleton_self skb) hpart
    right
    unfold aggPages
    rw [Multiset.mem_sum]
    exact ⟨a, Finset.mem_range.2 ha, hmem⟩

/-! ## The references -/

section

variable (q posted pool hand)

theorem held_post (b : Seg) :
    q.held (posted ++ [b]) pool hand = b.page ::ₘ q.held posted pool hand := by
  unfold held
  rw [map_append, ← Multiset.coe_add, map_singleton, Multiset.coe_singleton,
    ← Multiset.singleton_add]
  abel

theorem held_cons (b : Seg) :
    q.held (b :: posted) pool hand = b.page ::ₘ q.held posted pool hand := by
  unfold held
  rw [map_cons, ← Multiset.cons_coe, ← Multiset.singleton_add, ← Multiset.singleton_add]
  abel

theorem held_pool (page : ℕ) :
    q.held posted (page :: pool) hand = page ::ₘ q.held posted pool hand := by
  unfold held
  rw [← Multiset.cons_coe, ← Multiset.singleton_add, ← Multiset.singleton_add]
  abel

theorem held_pool_append (page : ℕ) :
    q.held posted (pool ++ [page]) hand = page ::ₘ q.held posted pool hand := by
  unfold held
  rw [← Multiset.coe_add, Multiset.coe_singleton, ← Multiset.singleton_add]
  abel

theorem held_hand (l : List PagePart) :
    q.held posted pool (l ++ hand) = (l.map PagePart.page : List ℕ) + q.held posted pool hand := by
  unfold held
  rw [map_append, ← Multiset.coe_add]
  abel

theorem held_cons_hand (part : PagePart) :
    q.held posted pool (part :: hand) = part.page ::ₘ q.held posted pool hand := by
  rw [← singleton_append, held_hand]
  rfl

end

theorem live_cons {part' : PagePart} :
    part ∈ part' :: hand ∨ q.Live part ↔ part = part' ∨ part ∈ hand ∨ q.Live part := by
  rw [mem_cons, or_assoc]

variable {hand' : List PagePart}

/-- A step that leaves the lists alone. -/
theorem alter (h : Owns q posted pool hand)
    (hkept : q'.cfg = q.cfg ∧ q'.pagePool = q.pagePool ∧ q'.xdpTx = q.xdpTx ∧
      q'.pending = q.pending ∧ q'.takenClean = q.takenClean)
    {m : Multiset ℕ} (hrefs : Exact q'.refs m) (hheld : q'.held posted pool hand' = m)
    (hlive : ∀ part, part ∈ hand' ∨ q'.Live part → part ∈ hand ∨ q.Live part)
    (haggs : ∀ a, (q'.tpaInfo a).Sound) : Owns q' posted pool hand' := by
  obtain ⟨cfg, _, _, _, _, _, pagePool, xdpTx, _, _, _, _, _, pending, takenClean⟩ := q'
  obtain ⟨rfl, rfl, rfl, rfl, rfl⟩ := hkept
  subst hheld
  exact { h with
    refs := hrefs
    apart := fun b hb part hpart => h.apart b hb part (hlive part hpart)
    aggs := haggs }

/-! ## New pages -/

/-- A page that nobody has is not in use. -/
theorem inUse_eq_false (hfree : page ∉ q.held posted pool hand) : q.inUse page = false := by
  unfold held at hfree
  simp only [Multiset.mem_add, Multiset.mem_coe, not_or] at hfree
  obtain ⟨⟨⟨⟨-, hpending⟩, -⟩, hstack⟩, -⟩ := hfree.1
  unfold inUse
  rw [Bool.or_eq_false_iff, any_eq_false]
  refine ⟨fun skb hskb hmem => hstack ?_, ?_⟩
  · exact Multiset.mem_coe.2 (mem_flatMap.2 ⟨skb, hskb, contains_iff_mem.1 hmem⟩)
  · rw [Bool.eq_false_iff]
    exact fun hmem => hpending (contains_iff_mem.1 hmem)

/-- **The first segment of a page that nobody has is posted.** -/
theorem enter (h : Owns q posted pool hand) (hfree : page ∉ q.held posted pool hand)
    {refs : ℕ → ℕ} (hrefs : Exact refs (page ::ₘ q.held posted pool hand)) :
    Owns { q with refs } (posted ++ [⟨page, 0⟩]) pool hand := by
  unfold held at hfree
  simp only [Multiset.mem_add, Multiset.mem_coe, not_or] at hfree
  obtain ⟨⟨⟨⟨⟨⟨hposted, hpool⟩, hpending⟩, hhand⟩, hstack⟩, hlost⟩, haggs⟩ := hfree
  refine ⟨h.pooled, h.xdp, forall_mem_append.2 ⟨h.segs, forall_mem_singleton.2
    ⟨dvd_zero _, q.cfg.page_pos⟩⟩, ?_, ?_, forall_mem_append.2 ⟨h.apart, forall_mem_singleton.2
    fun part hpart heq => ?_⟩, h.aggs, h.clean⟩
  · have hcons : (page :: (posted.map Seg.page ++ pool ++ q.pending)).Nodup := by
      refine nodup_cons.2 ⟨fun hmem => ?_, h.nodup⟩
      rcases mem_append.1 hmem with hmem | hmem
      · rcases mem_append.1 hmem with hmem | hmem
        · exact hposted hmem
        · exact hpool hmem
      · exact hpending hmem
    refine (Perm.nodup_iff ?_).1 hcons
    rw [map_append, append_assoc, append_assoc, append_assoc]
    exact perm_middle.symm
  · rw [held_post]
    exact hrefs
  · have hmem := live_mem hpart
    rw [heq, Multiset.mem_add, Multiset.mem_add] at hmem
    rcases hmem with (hmem | hmem) | hmem
    · exact absurd hmem hhand
    · exact absurd hmem hstack
    · exact absurd hmem haggs

/-- **A page is taken from the pool.** -/
theorem take (h : Owns q posted pool hand) (htake : q.qedeGetPageFromPool = some (page, q')) :
    ∃ pool', Owns q' (posted ++ [⟨page, 0⟩]) pool' hand := by
  unfold qedeGetPageFromPool at htake
  dsimp only at htake
  split at htake
  · exact nomatch htake
  rename_i hempty
  split at htake
  · exact nomatch htake
  rename_i href
  cases htake
  obtain ⟨pool', rfl, hpool⟩ := h.pooled.take hempty
  have hrefs := h.refs
  rw [held_pool] at hrefs
  have hfree := hrefs.sole (not_not.1 href)
  -- the page leaves the pool with its reference, and is entered as a new one
  have hleft : Owns { q with pagePool := _, refs := put q.refs [_] } posted pool' hand :=
    { h with
      pooled := hpool
      nodup := h.nodup.sublist (((sublist_cons_self _ _).append_left _).append_right _)
      refs := Exact.put (l := [_]) hrefs }
  refine ⟨pool', { hleft.enter hfree hrefs with clean := ?_ }⟩
  rw [inUse_eq_false hfree, h.clean]
  rfl

/-- **A page comes from the allocator.** -/
theorem allocPages (h : Owns q posted pool hand) {answer : PageAnswer}
    (halloc : q.allocPages answer = some (page, q')) :
    Owns q' (posted ++ [⟨page, 0⟩]) pool hand := by
  cases answer with
  | fails => exact nomatch halloc
  | page p pf =>
    rw [RxQueue.allocPages] at halloc
    split at halloc
    · rename_i href
      cases halloc
      exact { h.enter (h.refs.notMem href) (h.refs.first href) with }
    · exact nomatch halloc

/-! ## Socket buffers -/

theorem handPerm (h : Owns q posted pool hand) (hperm : hand'.Perm hand) :
    Owns q posted pool hand' := by
  refine h.alter ⟨rfl, rfl, rfl, rfl, rfl⟩ h.refs ?_ (fun _ => Or.imp_left (hperm.subset ·)) h.aggs
  unfold held
  rw [Multiset.coe_eq_coe.2 (hperm.map PagePart.page)]

variable {skb : RxSkb}

theorem kfreeSkb (h : Owns q posted pool (skb.parts ++ hand)) :
    Owns (q.kfreeSkb skb) posted pool hand := by
  have hrefs := h.refs
  rw [held_hand] at hrefs
  refine h.alter ⟨rfl, rfl, rfl, rfl, rfl⟩ hrefs.put rfl (fun part hpart => ?_) h.aggs
  exact hpart.imp_left (mem_append_right _)

theorem pass (h : Owns q posted pool (skb.parts ++ hand)) :
    Owns { q with stack := q.stack ++ [skb] } posted pool hand := by
  have hrefs := h.refs
  rw [held_hand] at hrefs
  refine h.alter ⟨rfl, rfl, rfl, rfl, rfl⟩ hrefs ?_ ?_ h.aggs
  · unfold held
    rw [skbPages_append, skbPages_singleton]
    change _ = (skb.pages : Multiset ℕ) + _
    abel
  · rintro part (hpart | ⟨s, hs, hpart⟩ | hagg)
    · exact .inl (mem_append_right _ hpart)
    · rcases mem_append.1 hs with hs | hs
      · exact .inr (.inl ⟨s, hs, hpart⟩)
      · rw [mem_singleton.1 hs] at hpart
        exact .inl (mem_append_left _ hpart)
    · exact .inr (.inr hagg)

/-- **The stack gives a buffer back.** -/
theorem release (h : Owns q posted pool hand) (i : ℕ) : Owns (q.release i) posted pool hand := by
  unfold RxQueue.release
  cases hget : q.stack[i]? with
  | none => exact h
  | some skb =>
    obtain ⟨hi, hskb⟩ := List.getElem?_eq_some_iff.1 hget
    have hperm : (skb :: q.stack.eraseIdx i).Perm q.stack := by
      rw [← hskb]
      exact getElem_cons_eraseIdx_perm hi
    have hheld : q.held posted pool hand = (skb.pages : Multiset ℕ) +
        held { q with stack := q.stack.eraseIdx i } posted pool hand := by
      have hpages :
          skbPages q.stack = (skb.pages : Multiset ℕ) + skbPages (q.stack.eraseIdx i) := by
        unfold skbPages
        rw [Multiset.coe_add]
        exact Multiset.coe_eq_coe.2 (hperm.symm.flatMap_right _)
      unfold held
      rw [hpages]
      dsimp only
      abel
    have hrefs := h.refs
    rw [hheld] at hrefs
    refine h.alter ⟨rfl, rfl, rfl, rfl, rfl⟩ hrefs.put rfl ?_ h.aggs
    rintro part (hpart | ⟨s, hs, hpart⟩ | hagg)
    · exact .inl hpart
    · exact .inr (.inl ⟨s, mem_of_mem_eraseIdx hs, hpart⟩)
    · exact .inr (.inr hagg)

/-! ## Posted segments -/

theorem perm {posted' : List Seg} (h : Owns q posted pool hand) (hperm : posted'.Perm posted) :
    Owns q posted' pool hand := by
  have hpages : (posted'.map Seg.page).Perm (posted.map Seg.page) := hperm.map _
  refine ⟨h.pooled, h.xdp, fun b hb => h.segs b (hperm.subset hb), ?_, ?_,
    fun b hb => h.apart b (hperm.subset hb), h.aggs, h.clean⟩
  · exact (((hpages.append_right pool).append_right q.pending).nodup_iff).2 h.nodup
  · unfold held
    rw [Multiset.coe_eq_coe.2 hpages]
    exact h.refs

/-- The page of a posted segment is nowhere else. -/
theorem page_notMem {b : Seg} (h : Owns q (b :: posted) pool hand) :
    b.page ∉ posted.map Seg.page ++ pool ++ q.pending :=
  (nodup_cons.1 h.nodup).1

/-- **A posted segment is handed over**, with the reference to its page. -/
theorem handOver {b : Seg} (h : Owns q (b :: posted) pool hand) (hpage : part.page = b.page) :
    Owns q posted pool (part :: hand) := by
  have hnotMem := h.page_notMem
  refine ⟨h.pooled, h.xdp, fun c hc => h.segs c (mem_cons_of_mem _ hc),
    (nodup_cons.1 h.nodup).2, ?_, fun c hc part' hpart' heq => ?_, h.aggs, h.clean⟩
  · rw [held_cons_hand, hpage, ← held_cons]
    exact h.refs
  · have hrest := h.apart c (mem_cons_of_mem _ hc) part'
    rcases live_cons.1 hpart' with rfl | hold
    · refine absurd ?_ hnotMem
      rw [← hpage, heq]
      exact mem_append_left _ (mem_append_left _ (mem_map_of_mem hc))
    · exact hrest hold heq

/-- A posted segment is within its page. -/
theorem seg_le {b : Seg} (h : Owns q posted pool hand) (hb : b ∈ posted) :
    b.off + q.cfg.rxBufSegSize ≤ q.cfg.pageSize := by
  obtain ⟨⟨k, hk⟩, hlt⟩ := h.segs b hb
  obtain ⟨m, hm⟩ := q.cfg.seg_dvd
  rw [hk, hm] at hlt
  rw [hk, hm]
  exact Nat.mul_le_mul_left _ (Nat.lt_of_mul_lt_mul_left hlt)

/-- **The next segment of a page is posted**, with a new reference for the socket buffer. -/
theorem nextSeg {b : Seg} (h : Owns q (b :: posted) pool hand)
    (hlt : b.off + q.cfg.rxBufSegSize ≠ q.cfg.pageSize) :
    Owns (q.pageRefInc b.page) (posted ++ [⟨b.page, b.off + q.cfg.rxBufSegSize⟩]) pool
      (⟨b.page, b.off, b.off + q.cfg.rxBufSegSize⟩ :: hand) := by
  have hnodup : ((posted ++ [Seg.mk b.page (b.off + q.cfg.rxBufSegSize)]).map Seg.page ++ pool ++
      q.pending).Nodup := by
    refine (Perm.nodup_iff ?_).1 h.nodup
    rw [map_append, append_assoc, append_assoc, append_assoc, map_cons]
    exact perm_middle.symm
  have hrefs := h.refs.get b.page
  rw [held_cons] at hrefs
  refine ⟨h.pooled, h.xdp, fun c hc => ?_, hnodup, ?_, fun c hc part hpart heq => ?_, h.aggs,
    h.clean⟩
  · rcases mem_append.1 hc with hc | hc
    · exact h.segs c (mem_cons_of_mem _ hc)
    · rw [mem_singleton.1 hc]
      exact ⟨Nat.dvd_add (h.segs b mem_cons_self).1 dvd_rfl,
        lt_of_le_of_ne (h.seg_le mem_cons_self) hlt⟩
  · rw [held_post, held_cons_hand]
    exact hrefs
  · rcases mem_append.1 hc with hc | hc
    · have hne : part.page ≠ b.page := fun hpage => h.page_notMem (by
        rw [← hpage, heq]
        exact mem_append_left _ (mem_append_left _ (mem_map_of_mem hc)))
      rcases live_cons.1 hpart with rfl | hold
      · exact absurd rfl hne
      · exact h.apart c (mem_cons_of_mem _ hc) part hold heq
    · rw [mem_singleton.1 hc] at heq ⊢
      rcases live_cons.1 hpart with rfl | hold
      · exact le_rfl
      · exact (h.apart b mem_cons_self part hold heq).trans (le_add_right _ _)

/-! ## The pool -/

/-- The pool takes a page that is on none of the lists. -/
theorem pool_nodup (hnodup : (posted.map Seg.page ++ pool ++ q.pending).Nodup)
    (hnew : page ∉ posted.map Seg.page ++ pool ++ q.pending) :
    (posted.map Seg.page ++ (pool ++ [page]) ++ q.pending).Nodup := by
  refine (Perm.nodup_iff ?_).1 (nodup_cons.2 ⟨hnew, hnodup⟩)
  rw [← append_assoc, append_assoc _ [page]]
  exact perm_middle.symm

/-- **A page is put into the pool**, with a reference of its own. -/
theorem addPageToPool (h : Owns q posted pool hand)
    (hnew : page ∉ posted.map Seg.page ++ pool ++ q.pending) :
    ∃ pool', Owns (q.qedeAddPageToPool page true).2 posted pool' hand := by
  unfold qedeAddPageToPool
  dsimp only
  split
  · exact ⟨pool, h⟩
  rename_i hfull
  split
  · exact ⟨pool, h⟩
  refine ⟨pool ++ [page], h.pooled.add hfull page, h.xdp, h.segs, pool_nodup h.nodup hnew, ?_,
    h.apart, h.aggs, h.clean⟩
  rw [held_pool_append]
  exact h.refs.get page

/-- A page that was handed over goes into the pool or is freed. -/
theorem recyclePage (h : Owns q posted pool (part :: hand))
    (hnew : part.page ∉ posted.map Seg.page ++ pool ++ q.pending) :
    ∃ pool', Owns (q.recyclePage part.page) posted pool' hand := by
  have hrefs := h.refs
  rw [← singleton_append, held_hand] at hrefs
  have hlive : ∀ p, p ∈ hand ∨ q.Live p → p ∈ part :: hand ∨ q.Live p :=
    fun p hp => hp.imp_left (mem_cons_of_mem _)
  have hfree : Owns (q.freePage part.page) posted pool hand :=
    h.alter ⟨rfl, rfl, rfl, rfl, rfl⟩ hrefs.put rfl hlive h.aggs
  unfold RxQueue.recyclePage qedeAddPageToPool
  dsimp only
  by_cases hfull : q.pagePool.next q.pagePool.prod = q.pagePool.cons
  · rw [if_pos hfull]
    exact ⟨pool, hfree⟩
  rw [if_neg hfull]
  by_cases hpf : q.pfmemalloc part.page = true
  · rw [if_pos hpf]
    exact ⟨pool, hfree⟩
  rw [if_neg hpf]
  refine ⟨pool ++ [part.page], h.pooled.add hfull _, h.xdp, h.segs, pool_nodup h.nodup hnew, ?_,
    fun b hb p hp => h.apart b hb p (hlive p hp), h.aggs, h.clean⟩
  rw [held_pool_append, ← Multiset.singleton_add]
  exact hrefs

/-! ## The XDP ring -/

theorem xdpXmit (h : Owns q posted pool (part :: hand))
    (hnew : part.page ∉ posted.map Seg.page ++ pool ++ q.pending)
    (hleft : qedChainGetElemLeft q.xdpTx.txPbl ≠ 0)
    (hfree : q.pending.length < q.cfg.numTxBuffers) :
    Owns (q.qedeXdpXmit part.page).2 posted pool hand := by
  have hrefs := h.refs
  rw [← singleton_append, held_hand] at hrefs
  unfold qedeXdpXmit
  dsimp only
  rw [if_neg hleft]
  refine ⟨h.pooled, h.xdp.push hleft hfree _, h.segs, ?_, ?_, fun b hb p hp =>
    h.apart b hb p (hp.imp_left (mem_cons_of_mem _)), h.aggs, h.clean⟩
  · dsimp only
    rw [← append_assoc]
    exact (perm_append_singleton _ _).nodup_iff.2 (nodup_cons.2 ⟨hnew, h.nodup⟩)
  · convert hrefs using 1
    unfold held
    dsimp only
    rw [← Multiset.coe_add, map_singleton]
    abel

theorem xdpTake (h : Owns q posted pool hand) (hne : q.pending ≠ []) :
    Owns q.xdpTake posted pool (⟨q.xdpTx.xdp q.xdpTx.swTxCons, 0, 0⟩ :: hand) ∧
      q.xdpTx.xdp q.xdpTx.swTxCons ∉ posted.map Seg.page ++ pool ++ q.xdpTake.pending := by
  obtain ⟨page, rest, hpending⟩ := exists_cons_of_ne_nil hne
  have hxdp := h.xdp
  rw [hpending] at hxdp
  obtain ⟨hpage, hpop⟩ := hxdp.pop
  have hperm : (posted.map Seg.page ++ pool ++ q.pending).Perm
      (page :: (posted.map Seg.page ++ pool ++ rest)) := by
    rw [hpending]
    exact perm_middle
  have hnodup := nodup_cons.1 (hperm.nodup_iff.1 h.nodup)
  have htail : q.xdpTake.pending = rest := by
    change q.pending.tail = rest
    rw [hpending, tail_cons]
  rw [hpage, htail]
  refine ⟨⟨h.pooled, ?_, h.segs, ?_, ?_, fun b hb p hp heq => ?_, h.aggs, h.clean⟩, hnodup.1⟩
  · rw [htail]
    exact hpop
  · rw [htail]
    exact hnodup.2
  · change Exact q.refs _
    convert h.refs using 1
    rw [held_cons_hand]
    unfold held
    rw [htail, hpending, ← Multiset.cons_coe, ← Multiset.singleton_add, ← Multiset.singleton_add]
    dsimp only
    abel
  · rcases live_cons.1 hp with rfl | hold
    · exact zero_le _
    · exact h.apart b hb p hold heq

/-! ## Aggregations -/

variable {a : ℕ} {info : AggInfo}

theorem held_setAgg (ha : a < ETH_TPA_MAX_AGGS_NUM) (q : RxQueue) (info : AggInfo)
    (posted : List Seg) (pool : List ℕ) (hand : List PagePart) :
    (q.setAgg a info).held posted pool hand + (q.tpaInfo a).pages =
      info.pages + q.held posted pool hand := by
  have hpages := aggPages_update ha q.tpaInfo info
  unfold held
  change _ + (q.pending : Multiset ℕ) + _ + skbPages q.stack + skbPages q.lost +
    aggPages (update q.tpaInfo a info) + _ = _
  rw [add_assoc, hpages]
  abel

theorem live_setAgg (h : (q.setAgg a info).Live part) :
    (info.state = .start ∧ ∃ skb, info.skb = some skb ∧ part ∈ skb.parts) ∨ q.Live part := by
  rcases h with hstack | ⟨c, hc, skb, hstate, hskb, hpart⟩
  · exact .inr (.inl hstack)
  · change (update q.tpaInfo a info c).state = _ at hstate
    change (update q.tpaInfo a info c).skb = _ at hskb
    rcases eq_or_ne c a with rfl | hne
    · rw [update_self] at hstate hskb
      exact .inl ⟨hstate, skb, hskb, hpart⟩
    · rw [update_of_ne hne] at hstate hskb
      exact .inr (.inr ⟨c, hc, skb, hstate, hskb, hpart⟩)

/-- An aggregation that has not begun adds nothing to what the stack will get. -/
theorem live_of_setAgg (hinfo : info.state ≠ .start) (part : PagePart)
    (h : part ∈ hand ∨ (q.setAgg a info).Live part) : part ∈ hand ∨ q.Live part :=
  h.imp_right fun hlive => (live_setAgg hlive).resolve_left fun hstart => hinfo hstart.1

theorem sound_setAgg (haggs : ∀ c, (q.tpaInfo c).Sound) (hinfo : info.Sound) (c : ℕ) :
    ((q.setAgg a info).tpaInfo c).Sound := by
  change (update q.tpaInfo a info c).Sound
  rcases eq_or_ne c a with rfl | hne
  · rw [update_self]
    exact hinfo
  · rw [update_of_ne hne]
    exact haggs c

section

variable (h : Owns q posted pool hand)

include h

section

variable (ha : a < ETH_TPA_MAX_AGGS_NUM)

include ha

/-- **An aggregation takes parts over**, or gives them away. -/
theorem setAgg
    (hpages : info.pages + (hand'.map PagePart.page : List ℕ) =
      (q.tpaInfo a).pages + (hand.map PagePart.page : List ℕ))
    (hlive : ∀ part, part ∈ hand' ∨ (info.state = .start ∧ ∃ skb, info.skb = some skb ∧
      part ∈ skb.parts) → part ∈ hand ∨ q.Live part)
    (hinfo : info.Sound) : Owns (q.setAgg a info) posted pool hand' := by
  refine h.alter ⟨rfl, rfl, rfl, rfl, rfl⟩ h.refs ?_ (fun part hpart => ?_)
    (sound_setAgg h.aggs hinfo)
  · refine add_right_cancel (b := (q.tpaInfo a).pages) ?_
    have hsplit := held_hand q posted pool [] hand
    have hsplit' := held_hand q posted pool [] hand'
    rw [append_nil] at hsplit hsplit'
    rw [held_setAgg ha, hsplit, hsplit', ← add_assoc, hpages]
    abel
  · rcases hpart with hmem | hpart
    · exact hlive part (.inl hmem)
    · rcases live_setAgg hpart with hnew | hold
      · exact hlive part (.inr hnew)
      · exact .inr hold

/-- An aggregation fails, with whatever it has. -/
theorem failAgg (hskb : info.skb = (q.tpaInfo a).skb) (hstate : info.state = .error) :
    Owns (q.setAgg a info) posted pool hand := by
  refine h.setAgg ha ?_ ?_ ⟨?_, ?_⟩
  · rw [pages, hskb]
    rfl
  · rintro part (hmem | ⟨hstart, -⟩)
    · exact .inl hmem
    · rw [hstate] at hstart
      exact nomatch hstart
  · rw [hstate]
    exact nofun
  · rw [hstate]
    exact nofun

/-- The socket buffer of a failed aggregation keeps a part that is posted again. -/
theorem failFrag (hskb : (q.tpaInfo a).skb = some skb) (part : PagePart) (fragId : ℕ) :
    Owns ((q.pageRefInc part.page).setAgg a
      ⟨.error, some { skb with parts := skb.parts ++ [part] }, fragId⟩) posted pool hand := by
  refine h.alter ⟨rfl, rfl, rfl, rfl, rfl⟩ (h.refs.get part.page) ?_ (live_of_setAgg nofun)
    (sound_setAgg h.aggs ⟨nofun, nofun⟩)
  refine add_right_cancel (b := (q.tpaInfo a).pages) ?_
  refine (held_setAgg ha (q.pageRefInc part.page) _ posted pool hand).trans ?_
  change _ + q.held posted pool hand = _
  rw [pages, pages, hskb, Option.toList_some, Option.toList_some,
    skbPages_singleton, skbPages_singleton, RxSkb.pages, map_append, ← Multiset.coe_add,
    map_singleton, Multiset.coe_singleton, ← Multiset.singleton_add]
  change (skb.pages : Multiset ℕ) + _ + _ = _
  abel

/-- The socket buffer of an aggregation is lost. -/
theorem loseAgg :
    Owns (RxQueue.setAgg { q with lost := q.lost ++ (q.tpaInfo a).skb.toList } a
      { q.tpaInfo a with state := .error, skb := none }) posted pool hand := by
  refine h.alter ⟨rfl, rfl, rfl, rfl, rfl⟩ h.refs ?_ (live_of_setAgg nofun)
    (sound_setAgg h.aggs ⟨nofun, nofun⟩)
  refine add_right_cancel (b := (q.tpaInfo a).pages) ?_
  refine (held_setAgg ha { q with lost := q.lost ++ (q.tpaInfo a).skb.toList } _ posted pool
    hand).trans ?_
  rw [pages_of_none, zero_add]
  unfold held
  dsimp only
  rw [skbPages_append]
  change _ + (_ + (q.tpaInfo a).pages) + _ = _
  abel

theorem endAgg :
    Owns ((q.tpaInfo a).skb.toList.foldl RxQueue.kfreeSkb
      (q.setAgg a { q.tpaInfo a with state := .none, skb := none })) posted pool hand := by
  have hheld := held_setAgg ha q { q.tpaInfo a with state := .none, skb := none } posted pool hand
  rw [pages_of_none, zero_add] at hheld
  have hrefs := h.refs
  rw [← hheld, add_comm] at hrefs
  cases hskb : (q.tpaInfo a).skb with
  | none =>
    rw [pages, hskb, Option.toList_none, skbPages, flatMap_nil, Multiset.coe_nil, zero_add]
      at hrefs
    exact h.alter ⟨rfl, rfl, rfl, rfl, rfl⟩ hrefs rfl (live_of_setAgg nofun)
      (sound_setAgg h.aggs ⟨nofun, fun _ => rfl⟩)
  | some skb =>
    rw [pages, hskb, Option.toList_some, skbPages_singleton] at hrefs
    have hlive : ∀ part, part ∈ hand ∨
        (q.setAgg a { q.tpaInfo a with state := .none, skb := none }).Live part →
        part ∈ hand ∨ q.Live part := live_of_setAgg nofun
    exact h.alter ⟨rfl, rfl, rfl, rfl, rfl⟩ hrefs.put rfl hlive
      (sound_setAgg h.aggs ⟨nofun, fun _ => rfl⟩)

theorem passAgg (hstate : (q.tpaInfo a).state = .start) :
    Owns { q.setAgg a { q.tpaInfo a with state := .none, skb := none } with
      stack := q.stack ++ (q.tpaInfo a).skb.toList } posted pool hand := by
  obtain ⟨skb, hskb⟩ := Option.ne_none_iff_exists'.1 ((h.aggs a).started hstate)
  have hgiven : Owns (q.setAgg a { q.tpaInfo a with state := .none, skb := none }) posted pool
      (skb.parts ++ hand) := by
    refine h.setAgg ha ?_ ?_ ⟨nofun, fun _ => rfl⟩
    · rw [pages_of_none, zero_add, pages, hskb, Option.toList_some, skbPages_singleton,
        map_append, Multiset.coe_add]
      rfl
    · rintro part (hmem | ⟨hstart, -⟩)
      · rcases mem_append.1 hmem with hmem | hmem
        · exact .inr (.inr ⟨a, ha, skb, hstate, hskb, hmem⟩)
        · exact .inl hmem
      · exact nomatch hstart
  rw [hskb]
  exact hgiven.pass

end

end

end Owns

end FastLinQ.Qede
