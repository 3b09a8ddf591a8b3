import FastLinQ.Qed.Ooo.Refine

/-!
# The archipelago table

`qed_ooo_seek_archipelago` checks an index of the table `p_archipelagos_mem` before it is used.
`qed_ooo_add_new_isle` uses the index of a connection that was not found without a check, if the
isle is the first one. The two functions that release isles do not count them.

In a run that does neither of this (`OooInfo.Ok`) each index is below `max_num_archipelagos`, and
`cur_isles_number` is the number of isles that are linked.
-/

namespace FastLinQ.Qed

open Nodes Run Function List OooInfo Nat

variable {β : Type*}

/-- A call, `qed_ooo_release_all_isles`, or a change to the free and the ready buffers. -/
inductive OooCall (β : Type*)
  | op (o : OooOp β)
  | releaseAllIsles
  | buffers (free ready : List β)

namespace OooInfo

def releaseAllIsles (s : OooInfo β) : OooInfo β :=
  let s := (range s.maxNumArchipelagos).foldl
    (fun s a => drainArchipelago a (s.isles a).length s) s
  { s with freeBuffers := s.freeBuffers ++ s.readyBuffers, readyBuffers := [] }

def call (s : OooInfo β) : OooCall β → OooInfo β
  | .op o => s.step o
  | .releaseAllIsles => s.releaseAllIsles
  | .buffers free ready => { s with freeBuffers := free, readyBuffers := ready }

/-- The index of `p_archipelagos_mem` that `qed_ooo_seek_archipelago` accesses, if any. -/
def seekAccesses (s : OooInfo β) (cid : ℕ) : List ℕ :=
  if s.maxNumArchipelagos ≤ s.idx cid then [] else [s.idx cid]

/-- The indices of `p_archipelagos_mem` that a call accesses: each seeks the archipelago, and
`qed_ooo_add_new_isle` takes it from the table if it was not found. -/
def accesses (s : OooInfo β) : OooCall β → List ℕ
  | .op (.addNewIsle cid isle _) => s.seekAccesses cid ++
    if s.seekArchipelago cid = none ∧ isle.val = 1 ∧ s.freeIsles ≠ [] then [s.idx cid] else []
  | .op o => s.seekAccesses o.cid
  | .releaseAllIsles => range s.maxNumArchipelagos
  | .buffers _ _ => []

/-- The number of isles that are linked in all archipelagos. -/
def linked (s : OooInfo β) : ℕ := ∑ a ∈ Finset.range s.maxNumArchipelagos, (s.isles a).length

/-- The first isle of a connection is not added for a connection outside the table, and isles are
released only where there are none. -/
def Ok (s : OooInfo β) : OooCall β → Prop
  | .op (.addNewIsle cid isle _) =>
    isle.val = 1 → s.freeIsles ≠ [] → s.idx cid < s.maxNumArchipelagos
  | .op (.releaseConnectionIsles cid) => s.seekArchipelago cid = none
  | .releaseAllIsles => ∀ a < s.maxNumArchipelagos, s.isles a = []
  | _ => True

/-! ## What a call does to the counts -/

variable {s s' s'' : OooInfo β} {a i cid isle : ℕ}

/-- The counter changes with the number of isles that are linked, and no isle is made. -/
structure Counts (s s' : OooInfo β) : Prop where
  conns : s'.maxNumArchipelagos = s.maxNumArchipelagos
  room : s'.linked + s'.freeIsles.length ≤ s.linked + s.freeIsles.length
  cur : s.curIslesNumber = s.linked % 2 ^ 32 → s'.curIslesNumber = s'.linked % 2 ^ 32

theorem Counts.trans (h : Counts s s') (h' : Counts s' s'') : Counts s s'' where
  conns := h'.conns.trans h.conns
  room := h'.room.trans h.room
  cur hs := h'.cur (h.cur hs)

section

variable (hconns : s'.maxNumArchipelagos = s.maxNumArchipelagos)

include hconns

theorem counts_of_eq (hisles : s'.isles = s.isles) (hcur : s'.curIslesNumber = s.curIslesNumber)
    (hfree : s'.freeIsles = s.freeIsles) : Counts s s' := by
  have hlinked : s'.linked = s.linked := by rw [linked, linked, hconns, hisles]
  refine ⟨hconns, ?_, fun hs => ?_⟩
  · rw [hlinked, hfree]
  · rw [hcur, hlinked, hs]

variable (ha : a < s.maxNumArchipelagos)

include ha

theorem linked_update {l : List ℕ} (hisles : s'.isles = update s.isles a l) :
    s'.linked + (s.isles a).length = s.linked + l.length := by
  have hmem := Finset.mem_range.2 ha
  have hcomp : (fun b => (update s.isles a l b).length) = update (length ∘ s.isles) a l.length :=
    comp_update length s.isles a l
  rw [linked, linked, hconns, hisles, hcomp, Finset.sum_update_of_mem hmem,
    Finset.sum_eq_sum_sdiff_singleton_add hmem]
  exact (add_assoc ..).trans (add_comm ..)

theorem counts_unlink (hi : i ∈ s.isles a)
    (hisles : s'.isles = update s.isles a ((s.isles a).erase i))
    (hcur : s'.curIslesNumber = Word.sub 32 s.curIslesNumber 1)
    (hfree : s'.freeIsles.length ≤ s.freeIsles.length + 1) : Counts s s' := by
  have hlen := length_erase_of_mem hi
  have hpos := length_pos_of_mem hi
  have hlinked := linked_update hconns ha hisles
  refine ⟨hconns, by omega, fun hs => ?_⟩
  rw [hcur, hs, Word.sub_mod_left, Word.sub_of_le (by omega)]
  congr 1
  omega

theorem counts_link {l rest : List ℕ} (hfree : s.freeIsles = i :: rest)
    (hl : l.length = (s.isles a).length + 1) (hisles : s'.isles = update s.isles a l)
    (hcur : s'.curIslesNumber = (s.curIslesNumber + 1) % 2 ^ 32) (hrest : s'.freeIsles = rest) :
    Counts s s' := by
  have hlen : s.freeIsles.length = s'.freeIsles.length + 1 := by rw [hfree, hrest, length_cons]
  have hlinked := linked_update hconns ha hisles
  refine ⟨hconns, by omega, fun hs => ?_⟩
  omega

end

theorem length_insertAfter {p x : ℕ} {l : List ℕ} (hp : p ∈ l) :
    (insertAfter p x l).length = l.length + 1 := by
  induction l with
  | nil => cases hp
  | cons b l ih =>
    rw [insertAfter]
    split
    · rfl
    · rename_i hne
      rw [length_cons, ih ((mem_cons.1 hp).resolve_left (Ne.symm hne)), length_cons]

/-- An isle that is found is linked in an archipelago of the table. -/
theorem mem_of_seekIsle (hisle : isle < 2 ^ 8) (h : s.seekIsle cid isle = some i) :
    s.idx cid < s.maxNumArchipelagos ∧ i ∈ s.isles (s.idx cid) := by
  by_cases hlt : s.idx cid < s.maxNumArchipelagos
  · rw [seekIsle_eq hlt hisle] at h
    exact ⟨hlt, mem_of_getElem? h⟩
  · rw [seekIsle, seekArchipelago, if_pos (by omega)] at h
    cases h

theorem counts_notice (ns : List OooNotice) : Counts s (s.notice ns) := counts_of_eq rfl rfl rfl rfl

theorem counts_addBehind {prev : Option ℕ} (b : β)
    (hprev : ∀ p, prev = some p → p ∈ s.isles (s.idx cid))
    (hlt : isle = 1 → s.freeIsles ≠ [] → s.idx cid < s.maxNumArchipelagos) :
    Counts s (s.addBehind cid isle prev b) := by
  rw [addBehind]
  split
  · exact counts_notice _
  · rename_i hone
    split
    · exact counts_notice _
    · rename_i i rest hfree
      have ha : s.idx cid < s.maxNumArchipelagos := by
        by_contra hge
        have hnone : (s.seekArchipelago cid).isNone := by
          rw [seekArchipelago, if_pos (by omega)]
          rfl
        exact hge (hlt (by simpa [hnone] using hone) (by simp [hfree]))
      rw [takeFreeIsle]
      cases prev with
      | none =>
        split
        · exact counts_link rfl ha hfree rfl rfl rfl rfl
        · exact counts_link rfl ha hfree rfl rfl rfl rfl
      | some p =>
        have hlen := length_insertAfter (x := i) (hprev p rfl)
        split
        · exact counts_link rfl ha hfree hlen rfl rfl rfl
        · exact counts_link rfl ha hfree hlen rfl rfl rfl

theorem counts_deleteIsles {drop : ℕ} (hdrop : drop < 2 ^ 8) (n : ℕ) :
    Counts s (deleteIsles cid drop n s) := by
  induction n generalizing s with
  | zero => exact counts_of_eq rfl rfl rfl rfl
  | succ n ih =>
    rw [deleteIsles]
    split
    · exact counts_notice _
    · rename_i i hi
      obtain ⟨ha, hmem⟩ := mem_of_seekIsle hdrop hi
      refine .trans ?_ ih
      rw [deleteIsle]
      split
      · exact counts_unlink rfl ha hmem rfl rfl le_rfl
      · exact counts_unlink rfl ha hmem rfl rfl le_rfl

theorem counts_joinIsles (left : ℕ) : Counts s (s.joinIsles cid left) := by
  rw [joinIsles]
  split
  · exact counts_notice _
  · rename_i r hr
    obtain ⟨ha, hmem⟩ := mem_of_seekIsle (mod_lt _ (by decide)) hr
    have hfree : (s.freeIsles ++ [r]).length ≤ s.freeIsles.length + 1 := by rw [length_append]; rfl
    dsimp only
    split
    · split
      · exact counts_unlink rfl ha hmem rfl rfl (le_succ _)
      · exact counts_unlink rfl ha hmem rfl rfl hfree
    · exact counts_unlink rfl ha hmem rfl rfl hfree

theorem foldl_drain_eq (as : List ℕ) (has : ∀ a ∈ as, s.isles a = []) :
    as.foldl (fun s a => drainArchipelago a (s.isles a).length s) s = s := by
  induction as with
  | nil => rfl
  | cons a as ih =>
    rw [foldl_cons, has a mem_cons_self]
    exact ih fun b hb => has b (mem_cons_of_mem _ hb)

/-- A call that meets the condition counts the isles. -/
theorem Ok.counts {c : OooCall β} (h : s.Ok c) : Counts s (s.call c) := by
  cases c with
  | op o =>
    cases o with
    | addNewIsle cid isle b =>
      change Counts s (s.addNewIsle cid isle b)
      rw [addNewIsle]
      split
      · split
        · exact counts_notice _
        · rename_i p hp
          obtain ⟨ha, hmem⟩ := mem_of_seekIsle (by omega) hp
          exact counts_addBehind b (fun q hq => Option.some.inj hq ▸ hmem) fun _ _ => ha
      · exact counts_addBehind b (by simp) h
    | addNewBuffer cid isle b left =>
      change Counts s (s.addNewBuffer cid isle b left)
      rw [addNewBuffer]
      split
      · exact counts_notice _
      · exact counts_of_eq rfl rfl rfl rfl
    | joinIsles cid left => exact counts_joinIsles left
    | deleteIsles cid drop size => exact counts_deleteIsles drop.isLt size
    | releaseConnectionIsles cid =>
      have hnone := h
      change Counts s (s.releaseConnectionIsles cid)
      rw [releaseConnectionIsles, hnone]
      exact counts_of_eq rfl rfl rfl rfl
  | releaseAllIsles =>
    change Counts s s.releaseAllIsles
    rw [releaseAllIsles, foldl_drain_eq _ fun a ha => h a (mem_range.1 ha)]
    exact counts_of_eq rfl rfl rfl rfl
  | buffers free ready => exact counts_of_eq rfl rfl rfl rfl

theorem seekAccesses_lt (hmem : a ∈ s.seekAccesses cid) : a < s.maxNumArchipelagos := by
  rw [seekAccesses] at hmem
  split at hmem
  · cases hmem
  · obtain rfl := mem_singleton.1 hmem
    omega

/-- A call that meets the condition accesses the table only. -/
theorem Ok.accesses_lt {c : OooCall β} (h : s.Ok c) (hmem : a ∈ s.accesses c) :
    a < s.maxNumArchipelagos := by
  cases c with
  | op o =>
    cases o with
    | addNewIsle cid isle b =>
      rcases mem_append.1 hmem with hmem | hmem
      · exact seekAccesses_lt hmem
      · split at hmem
        · rename_i hfirst
          obtain rfl := mem_singleton.1 hmem
          exact h hfirst.2.1 hfirst.2.2
        · cases hmem
    | addNewBuffer | joinIsles | deleteIsles | releaseConnectionIsles => exact seekAccesses_lt hmem
  | releaseAllIsles => exact mem_range.1 hmem
  | buffers free ready => cases hmem

end OooInfo

/-! ## Runs -/

/-- The structure, and the indices of the table that were accessed so far. -/
structure OooSys (β : Type*) where
  info : OooInfo β
  accessed : List ℕ

namespace OooSys

def step (s : OooSys β) (c : OooCall β) : OooSys β :=
  ⟨s.info.call c, s.accessed ++ s.info.accesses c⟩

/-- Each index was in the table, and the linked isles are counted. -/
structure Safe (s : OooSys β) : Prop where
  inTable : ∀ a ∈ s.accessed, a < s.info.maxNumArchipelagos
  counted : s.info.curIslesNumber = s.info.linked

/-- **The archipelago table.** In a run from `qed_ooo_alloc` of calls that meet the condition each
index is in the table, and the counter is the number of linked isles. -/
theorem safe_run (m base : ℕ) (free : List β) {l : List (OooCall β)}
    (hl : Meets (fun s => s.info.Ok) step ⟨alloc m base free, []⟩ l) :
    (l.foldl step ⟨alloc m base free, []⟩).Safe := by
  have hzero : (alloc m base free).linked = 0 := Finset.sum_const_zero
  -- with the number of isles bounded the counter does not wrap
  have hrun := hl.invariant
    (P := fun s => s.Safe ∧ s.info.linked + s.info.freeIsles.length < 2 ^ 32)
    (fun s c ⟨hs, hroom⟩ hc => by
      obtain ⟨hconns, hle, hcur⟩ := Ok.counts hc
      have hmod := hcur (by rw [hs.counted, mod_eq_of_lt (by omega)])
      rw [mod_eq_of_lt (by omega)] at hmod
      refine ⟨⟨fun a ha => ?_, hmod⟩, hle.trans_lt hroom⟩
      rw [show (s.step c).info.maxNumArchipelagos = _ from hconns]
      exact (mem_append.1 ha).elim (hs.inTable a) (Ok.accesses_lt hc))
    ⟨⟨nofun, hzero.symm⟩, by
      change (alloc m base free).linked + (range _).length < 2 ^ 32
      rw [length_range]
      omega⟩
  exact hrun.1

/-- Two isles of a connection are joined and deleted. -/
theorem safe_joined :
    let s := [OooCall.op (.addNewIsle 16 1 5), .op (.addNewIsle 16 1 4), .op (.joinIsles 16 1),
      .op (.deleteIsles 16 1 1), .op (.releaseConnectionIsles 16)].foldl step
        ⟨alloc 1 16 [7], []⟩
    s.info.genIslesNumber = 2 ∧ s.Safe := by
  refine ⟨by decide +kernel, safe_run 1 16 [7] ⟨?_, ?_, trivial, trivial, ?_, trivial⟩⟩
  · exact fun _ _ => by decide +kernel
  · exact fun _ _ => by decide +kernel
  · change seekArchipelago _ _ = none
    decide +kernel

/-- An isle that is released stays counted. -/
theorem not_safe_of_release :
    ¬ ([OooCall.op (.addNewIsle 16 1 5), .op (.releaseConnectionIsles 16)].foldl step
      ⟨alloc 1 16 [7], []⟩).Safe := by
  intro h
  exact absurd h.counted (by decide +kernel)

end OooSys

end FastLinQ.Qed
