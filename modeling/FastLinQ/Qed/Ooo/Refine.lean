import FastLinQ.Foundations.Places
import FastLinQ.Foundations.Run
import FastLinQ.Qed.Ooo.Basic

/-!
# The isles are lists of lists

`OooLists` is what the isles are for: the isles of each connection as a list of lists of buffers,
the ready list, the free buffers and the number of isles that are not in use. Its operations are
operations on lists. `OooInfo.lists` reads these lists off the nodes, and each call of the driver
does on the nodes what the operation does on the lists, as long as each isle is linked once
(`OooInfo.Inv`).
-/

namespace FastLinQ.Qed

open Nodes Places Run Function List OooInfo Nat OooNotice

variable {β : Type*}

/-- The isles as lists. -/
@[ext]
structure OooLists (β : Type*) where
  isles : ℕ → List (List β)
  ready : List β
  free : List β
  freeIsles : ℕ

namespace OooLists

variable (t : OooLists β) (c : ℕ)

def addNewIsle (oooIsle : ℕ) (b : β) : OooLists β :=
  if t.freeIsles = 0 then t
  else
    { t with
      isles := update t.isles c ((t.isles c).insertIdx (oooIsle - 1) [b])
      freeIsles := t.freeIsles - 1 }

def addNewBuffer (oooIsle : ℕ) (b : β) (left : Bool) : OooLists β :=
  { t with
    isles := update t.isles c
      ((t.isles c).modify (oooIsle - 1) fun bs => if left then b :: bs else bs ++ [b]) }

/-- An isle is appended to the one before it, and the first isle to the ready list. -/
def joinIsles (leftIsle : ℕ) : OooLists β :=
  let isle := (t.isles c).getD leftIsle []
  if leftIsle ≠ 0 then
    { t with
      isles := update t.isles c
        (((t.isles c).eraseIdx leftIsle).modify (leftIsle - 1) (· ++ isle))
      freeIsles := t.freeIsles + 1 }
  else
    { t with
      isles := update t.isles c (t.isles c).tail
      ready := t.ready ++ isle
      freeIsles := t.freeIsles + 1 }

/-- Some isles are deleted, and their buffers are free. -/
def deleteIsles (dropIsle dropSize : ℕ) : OooLists β :=
  { t with
    isles := update t.isles c
      ((t.isles c).take (dropIsle - 1) ++ (t.isles c).drop (dropIsle - 1 + dropSize))
    free := t.free ++ (((t.isles c).drop (dropIsle - 1)).take dropSize).flatten
    freeIsles := t.freeIsles + dropSize }

def releaseConnectionIsles : OooLists β :=
  { t with
    isles := update t.isles c []
    free := t.free ++ (t.isles c).flatten
    freeIsles := t.freeIsles + (t.isles c).length }

/-- The operation of a call, on the lists of the connection it is for. -/
def step (conn : ℕ → ℕ) (t : OooLists β) : OooOp β → OooLists β
  | .addNewIsle cid isle b => t.addNewIsle (conn cid) isle b
  | .addNewBuffer cid isle b left => t.addNewBuffer (conn cid) isle b left
  | .joinIsles cid left => t.joinIsles (conn cid) left
  | .deleteIsles cid drop size => t.deleteIsles (conn cid) drop size
  | .releaseConnectionIsles cid => t.releaseConnectionIsles (conn cid)

variable {t} {c}

theorem deleteIsles_zero {drop : ℕ} : t.deleteIsles c drop 0 = t := by
  simp [deleteIsles]

theorem deleteIsles_succ {drop m : ℕ} {bs : List β} (hbs : (t.isles c)[drop - 1]? = some bs) :
    ({ t with
        isles := update t.isles c ((t.isles c).eraseIdx (drop - 1))
        free := t.free ++ bs
        freeIsles := t.freeIsles + 1 } : OooLists β).deleteIsles c drop m =
      t.deleteIsles c drop (m + 1) := by
  obtain ⟨hlt, rfl⟩ := List.getElem?_eq_some_iff.1 hbs
  have hlen : ((t.isles c).take (drop - 1)).length = drop - 1 := length_take_of_le (by omega)
  have hrest : ∀ j, ((t.isles c).eraseIdx (drop - 1)).drop (drop - 1 + j) =
      (t.isles c).drop (drop - 1 + 1 + j) := by
    intro j
    rw [eraseIdx_eq_take_drop_succ, drop_append, hlen, Nat.add_sub_cancel_left,
      drop_eq_nil_of_le (by omega), nil_append, drop_drop]
  have hfirst :
      ((t.isles c).eraseIdx (drop - 1)).take (drop - 1) = (t.isles c).take (drop - 1) := by
    rw [eraseIdx_eq_take_drop_succ, take_append_of_le_length hlen.ge, take_take, min_self]
  ext1
  · simp only [deleteIsles, update_self, update_idem]
    rw [hfirst, hrest m, add_assoc, add_comm 1 m]
  · rfl
  · simp only [deleteIsles, update_self]
    rw [show ((t.isles c).eraseIdx (drop - 1)).drop (drop - 1) = _ from hrest 0,
      drop_eq_getElem_cons hlt, take_succ_cons, flatten_cons, append_assoc]
  · simp only [deleteIsles]
    omega

theorem releaseConnectionIsles_cons {bs : List β} {isles : List (List β)}
    (hisles : t.isles c = bs :: isles) :
    ({ t with
        isles := update t.isles c (t.isles c).tail
        free := t.free ++ bs
        freeIsles := t.freeIsles + 1 } : OooLists β).releaseConnectionIsles c =
      t.releaseConnectionIsles c := by
  ext1
  · simp [releaseConnectionIsles, update_idem]
  · rfl
  · simp [releaseConnectionIsles, hisles]
  · simp only [releaseConnectionIsles, update_self, hisles, tail_cons, length_cons]
    omega

theorem step_isles_of_ne (conn : ℕ → ℕ) (op : OooOp β) (hc : c ≠ conn op.cid) :
    (t.step conn op).isles c = t.isles c := by
  cases op with
  | addNewIsle cid isle b =>
    simp only [step, addNewIsle]
    split
    · rfl
    · exact update_of_ne hc ..
  | addNewBuffer cid isle b left => exact update_of_ne hc ..
  | joinIsles cid left =>
    simp only [step, joinIsles]
    split
    · exact update_of_ne hc ..
    · exact update_of_ne hc ..
  | deleteIsles cid drop size => exact update_of_ne hc ..
  | releaseConnectionIsles cid => exact update_of_ne hc ..

/-- The isle that a call moves to the ready list. -/
def toReady (conn : ℕ → ℕ) (t : OooLists β) : OooOp β → List (List β)
  | .joinIsles cid left => if left.val = 0 then (t.isles (conn cid)).take 1 else []
  | _ => []

/-- The isles that a run moves to the ready list, in this order. -/
def joined (conn : ℕ → ℕ) : OooLists β → List (OooOp β) → List (List β)
  | _, [] => []
  | t, op :: ops => t.toReady conn op ++ joined conn (t.step conn op) ops

theorem step_ready (conn : ℕ → ℕ) (op : OooOp β) :
    (t.step conn op).ready = t.ready ++ (t.toReady conn op).flatten := by
  cases op with
  | joinIsles cid left =>
    simp only [step, joinIsles, toReady]
    by_cases h0 : left.val = 0
    · rw [h0]
      cases t.isles (conn cid) with
      | nil => rfl
      | cons bs isles => simp
    · rw [if_pos h0, if_neg h0]
      simp
  | addNewIsle cid isle b =>
    simp only [step, addNewIsle, toReady, flatten_nil, append_nil]
    split
    · rfl
    · rfl
  | addNewBuffer | deleteIsles | releaseConnectionIsles => exact (append_nil _).symm

theorem ready_foldl (conn : ℕ → ℕ) (ops : List (OooOp β)) :
    (ops.foldl (step conn) t).ready = t.ready ++ (t.joined conn ops).flatten := by
  induction ops generalizing t with
  | nil => exact (append_nil _).symm
  | cons op ops ih =>
    rw [foldl_cons, ih, step_ready, joined, flatten_append, append_assoc]

end OooLists

namespace OooInfo

def lists (s : OooInfo β) : OooLists β :=
  ⟨fun c => (s.isles c).map s.buffers, s.readyBuffers, s.freeBuffers, s.freeIsles.length⟩

/-- The list of isles at a place: free, or the archipelago of a connection. -/
def onList (s : OooInfo β) : Option ℕ → List ℕ
  | none => s.freeIsles
  | some c => s.isles c

/-- Each of `n` isles is on one list, and those that are free are empty. -/
structure Inv (s : OooInfo β) (n : ℕ) : Prop where
  filed : ∃ f, Filed s.onList f ∧ ∀ i, f i = none ↔ n ≤ i
  empty : ∀ i ∈ s.freeIsles, s.buffers i = []
  outside : ∀ c, s.maxNumArchipelagos ≤ c → s.isles c = []
  quiet : freeIsleNotEmpty ∉ s.notices

variable {s s' : OooInfo β} {n c : ℕ}

theorem Inv.nodup (h : s.Inv n) (c : ℕ) : (s.isles c).Nodup := by
  obtain ⟨f, hf, -⟩ := h.filed
  exact hf.nodup (some c)

variable {i : ℕ}

theorem Inv.not_mem (h : s.Inv n) (hi : i ∈ s.isles c) (d : ℕ) (hd : d ≠ c) : i ∉ s.isles d := by
  obtain ⟨f, hf, -⟩ := h.filed
  exact hf.not_mem (a := some c) hi fun he => hd (Option.some.inj he).symm

theorem Inv.not_free (h : s.Inv n) (hi : i ∈ s.isles c) : i ∉ s.freeIsles := by
  obtain ⟨f, hf, -⟩ := h.filed
  exact hf.not_mem (a := some c) (b := none) hi nofun

/-- The isles that are free and those of the connections are all there are. -/
theorem Inv.count (h : s.Inv n) :
    s.freeIsles.length +
      ((range s.maxNumArchipelagos).map fun c => (s.isles c).length).sum = n := by
  obtain ⟨f, hf, hall⟩ := h.filed
  have hnodup : ((none :: (range s.maxNumArchipelagos).map some).flatMap s.onList).Nodup :=
    hf.nodup_flatMap
      (nodup_cons.2 ⟨by simp, nodup_range.map (Option.some_injective ℕ)⟩)
  have hperm : ((none :: (range s.maxNumArchipelagos).map some).flatMap s.onList).Perm
      (range n) := by
    refine (perm_ext_iff_of_nodup hnodup nodup_range).2 fun i => ?_
    rw [mem_range, ← not_le, ← hall i, mem_flatMap]
    constructor
    · rintro ⟨k, -, hi⟩ hnone
      rw [hf.place hi] at hnone
      cases hnone
    · intro hsome
      obtain ⟨k, hk⟩ := Option.ne_none_iff_exists'.1 hsome
      have hi := (hf.mem_iff k i).2 hk
      refine ⟨k, ?_, hi⟩
      cases k with
      | none => exact mem_cons_self
      | some c =>
        refine mem_cons_of_mem _ (mem_map_of_mem (mem_range.2 ?_))
        by_contra hc
        have hnil := h.outside c (by omega)
        rw [show s.onList (some c) = s.isles c from rfl, hnil] at hi
        cases hi
  have hlen := hperm.length_eq
  rw [length_range, flatMap_cons, length_append, length_flatMap, map_map] at hlen
  exact hlen

/-! ## Finding an isle -/

/-- The loop counts in a `u8`, so it finds an isle by its number modulo 256. -/
theorem seekIsleFrom_eq {isle k : ℕ} (hisle : isle < 2 ^ 8) (hk : k < 2 ^ 8) (l : List ℕ) :
    seekIsleFrom isle l k = l[(isle + 2 ^ 8 - k) % 2 ^ 8]? := by
  induction l generalizing k with
  | nil => rw [seekIsleFrom, getElem?_nil]
  | cons i is ih =>
    rw [seekIsleFrom]
    split
    · rename_i heq
      rw [heq, Nat.add_sub_cancel_left, Nat.mod_self, getElem?_cons_zero]
    · have hpos : (isle + 2 ^ 8 - k) % 2 ^ 8 = (isle + 2 ^ 8 - (k + 1) % 2 ^ 8) % 2 ^ 8 + 1 := by
        omega
      rw [ih (mod_lt _ (by decide)), hpos, getElem?_cons_succ]

/-- An isle of a connection is found at its place. -/
theorem seekIsle_eq {cid isle : ℕ} (hcid : s.idx cid < s.maxNumArchipelagos)
    (hisle : isle < 2 ^ 8) :
    s.seekIsle cid isle = (s.isles (s.idx cid))[(isle + 2 ^ 8 - 1) % 2 ^ 8]? := by
  rw [seekIsle, seekArchipelago, if_neg (by omega)]
  by_cases hnil : s.isles (s.idx cid) = []
  · rw [hnil]
    rfl
  · rw [if_neg (by simpa using hnil)]
    exact seekIsleFrom_eq hisle (by decide) _

variable {cid : ℕ}

theorem seekArchipelago_isNone (hcid : s.idx cid < s.maxNumArchipelagos) :
    (s.seekArchipelago cid).isNone = (s.isles (s.idx cid)).isEmpty := by
  rw [seekArchipelago, if_neg (by omega)]
  cases s.isles (s.idx cid) with
  | nil => rfl
  | cons => rfl

/-! ## Moving an isle -/

theorem exists_isle (s : OooInfo β) (c k : ℕ) (hk : k < (s.isles c).length) :
    ∃ i, (s.isles c)[k]? = some i :=
  ⟨_, getElem?_eq_getElem hk⟩

theorem Inv.move (h : s.Inv n) {a b : Option ℕ} (hi : i ∈ s.onList a)
    (ha : (s'.onList a).Perm ((s.onList a).erase i)) (hb : (s'.onList b).Perm (i :: s.onList b))
    (hk : ∀ k, k ≠ a → k ≠ b → s'.onList k = s.onList k)
    (hempty : ∀ j ∈ s'.freeIsles, s'.buffers j = [])
    (hmax : s'.maxNumArchipelagos = s.maxNumArchipelagos)
    (hin : ∀ c, b = some c → c < s.maxNumArchipelagos)
    (hquiet : freeIsleNotEmpty ∉ s'.notices) : s'.Inv n := by
  obtain ⟨f, hf, hall⟩ := h.filed
  refine ⟨⟨_, hf.move hi ha hb hk, fun j => ?_⟩, hempty, fun c hc => ?_, hquiet⟩
  · rw [update_eq_none_iff (hf.place hi), hall]
  · rw [hmax] at hc
    have hnil := h.outside c hc
    by_cases hca : some c = a
    · subst hca
      have : s.onList (some c) = [] := hnil
      rw [this] at hi
      cases hi
    · have hcb : some c ≠ b := fun he => by
        have := hin c he.symm
        omega
      exact (hk (some c) hca hcb).trans hnil

/-! ## The calls -/

/-- A call does to the lists what is said of it. -/
structure Does (s s' : OooInfo β) (n : ℕ) (t : OooLists β) : Prop where
  inv : s'.Inv n
  lists : s'.lists = t
  conns : s'.maxNumArchipelagos = s.maxNumArchipelagos
  base : s'.cidBase = s.cidBase

section

variable (h : s.Inv n)

include h

theorem Inv.link {i k : ℕ} {rest : List ℕ} (hfree : s.freeIsles = i :: rest)
    (hc : c < s.maxNumArchipelagos) (hk : k ≤ (s.isles c).length) (b : β) {L : List ℕ}
    (hL : L = (s.isles c).insertIdx k i) {cur max gen : ℕ} :
    Does s
      ⟨s.freeBuffers, s.readyBuffers, rest, update s.isles c L,
        update s.buffers i (b :: s.buffers i), cur, max, gen, s.maxNumArchipelagos, s.cidBase,
        s.notices⟩ n (s.lists.addNewIsle c (k + 1) b) := by
  obtain ⟨f, hf, -⟩ := h.filed
  have hi : i ∈ s.onList none := by
    change i ∈ s.freeIsles
    rw [hfree]
    exact mem_cons_self
  have hnot : ∀ d, i ∉ s.isles d := fun d => hf.not_mem (b := some d) hi nofun
  have hnodup : (i :: rest).Nodup := hfree ▸ hf.nodup none
  rw [h.empty i hi]
  refine ⟨h.move (b := some c) hi ?_ ?_ ?_ ?_ rfl ?_ h.quiet, ?_, rfl, rfl⟩
  · change rest.Perm (s.freeIsles.erase i)
    rw [hfree, erase_cons_head]
  · change (update s.isles c L c).Perm _
    rw [update_self, hL]
    exact perm_insertIdx i _ hk
  · intro d hda hdb
    cases d with
    | none => exact absurd rfl hda
    | some d => exact update_of_ne (fun hd => hdb (congrArg some hd)) ..
  · intro j hj
    have hne : j ≠ i := fun he => (nodup_cons.1 hnodup).1 (he ▸ hj)
    exact (update_of_ne hne ..).trans (h.empty j (hfree ▸ mem_cons_of_mem _ hj))
  · rintro d ⟨⟩
    exact hc
  · have hfull : s.lists.freeIsles ≠ 0 := by
      change s.freeIsles.length ≠ 0
      simp [hfree]
    rw [OooLists.addNewIsle, if_neg hfull]
    ext1
    · change (fun d => (update s.isles c L d).map (update s.buffers i [b])) = _
      have hother : ∀ d, d ≠ c → ∀ j ∈ s.isles d, update s.buffers i [b] j = s.buffers j :=
        fun d _ j hj => update_of_ne (fun (he : j = i) => hnot d (he ▸ hj)) ..
      rw [map_update_table _ hother, hL, map_insertIdx,
        map_update_of_not_mem _ (hnot c), update_self]
      rfl
    · rfl
    · rfl
    · change rest.length = s.freeIsles.length - 1
      rw [hfree, length_cons, Nat.add_sub_cancel]

theorem Inv.giveBack {g bufs : ℕ → List β} {freeIsles : List ℕ} {ready free : List β}
    {ns : List OooNotice} {cur : ℕ} (hi : i ∈ s.isles c) (hfree : freeIsles.Perm (i :: s.freeIsles))
    (hbufs : bufs = update g i []) (hg : ∀ j ∉ s.isles c, g j = s.buffers j)
    (hquiet : freeIsleNotEmpty ∉ ns) :
    Does s
      { s with
        isles := update s.isles c ((s.isles c).erase i)
        buffers := bufs
        freeIsles := freeIsles
        readyBuffers := ready
        freeBuffers := free
        curIslesNumber := cur
        notices := ns } n
      ⟨update s.lists.isles c (((s.isles c).erase i).map g), ready, free,
        s.lists.freeIsles + 1⟩ := by
  subst hbufs
  have hother : ∀ j ∉ s.isles c, update g i [] j = s.buffers j := fun j hj =>
    (update_of_ne (fun (he : j = i) => hj (he ▸ hi)) ..).trans (hg j hj)
  refine ⟨h.move (a := some c) (b := none) hi ?_ hfree ?_ ?_ rfl nofun hquiet, ?_, rfl, rfl⟩
  · exact .of_eq (update_self ..)
  · intro k hka hkb
    cases k with
    | none => exact absurd rfl hkb
    | some d => exact update_of_ne (fun hd => hka (congrArg some hd)) ..
  · intro j hj
    rcases mem_cons.1 (hfree.mem_iff.1 hj) with rfl | hj
    · exact update_self ..
    · exact (hother j fun hmem => h.not_free hmem hj).trans (h.empty j hj)
  · ext1
    · change (fun d => (update s.isles c _ d).map (update g i [])) = _
      rw [map_update_table s.isles fun d hd j hj =>
        hother j fun hmem => h.not_mem hmem d hd hj,
        map_update_of_not_mem _ (h.nodup c).not_mem_erase]
      rfl
    · rfl
    · rfl
    · exact hfree.length_eq

/-- Only messages are printed. -/
theorem Inv.noticed {ns : List OooNotice} (hns : freeIsleNotEmpty ∉ ns) :
    Does s (s.notice ns) n s.lists := by
  refine ⟨{ h with quiet := ?_ }, rfl, rfl, rfl⟩
  intro hmem
  rcases mem_append.1 hmem with hmem | hmem
  · exact h.quiet hmem
  · exact hns hmem

theorem Inv.addBehind {cid isle : ℕ} {prev : Option ℕ} (hcid : s.idx cid < s.maxNumArchipelagos)
    (hlow : 1 ≤ isle) (hhigh : isle ≤ (s.isles (s.idx cid)).length + 1)
    (hprev : ∀ p, prev = some p → 1 < isle ∧ (s.isles (s.idx cid))[isle - 2]? = some p)
    (hfirst : prev = none → isle = 1) (b : β) :
    Does s (s.addBehind cid isle prev b) n (s.lists.addNewIsle (s.idx cid) isle b) := by
  have hfound : ¬ ((s.seekArchipelago cid).isNone ∧ isle ≠ 1) := by
    rw [seekArchipelago_isNone hcid]
    rintro ⟨hempty, hne⟩
    rw [isEmpty_iff.1 hempty, length_nil] at hhigh
    omega
  rw [OooInfo.addBehind, if_neg hfound]
  split
  · rename_i hfree
    have hzero : s.lists.freeIsles = 0 := by
      change s.freeIsles.length = 0
      rw [hfree, length_nil]
    rw [OooLists.addNewIsle, if_pos hzero]
    exact h.noticed (by simp)
  · rename_i i rest hfree
    have hempty : s.buffers i = [] := h.empty i (hfree ▸ mem_cons_self)
    have htake : s.takeFreeIsle i rest = { s with freeIsles := rest } :=
      if_pos (by rw [hempty]; rfl)
    have hisle : isle = isle - 1 + 1 := by omega
    rw [htake, hisle]
    cases prev with
    | none =>
      rw [hfirst rfl]
      exact h.link hfree hcid (zero_le _) b rfl
    | some p =>
      obtain ⟨hone, hp⟩ := hprev p rfl
      refine h.link (k := isle - 1) hfree hcid (by omega) b ?_
      change insertAfter p i (s.isles (s.idx cid)) = _
      rw [insertAfter_eq_insertIdx (h.nodup _) hp, show isle - 2 + 1 = isle - 1 by omega]

theorem Inv.addNewIsle {isle : Fin (2 ^ 8)} (hcid : s.idx cid < s.maxNumArchipelagos)
    (hlow : 1 ≤ isle.val) (hhigh : isle ≤ (s.isles (s.idx cid)).length + 1) (b : β) :
    Does s (s.addNewIsle cid isle b) n (s.lists.addNewIsle (s.idx cid) isle b) := by
  rw [OooInfo.addNewIsle]
  split
  · rename_i hone
    have hpos : (isle.val - 1 + 2 ^ 8 - 1) % 2 ^ 8 = isle - 2 := by omega
    rw [seekIsle_eq hcid (by omega), hpos]
    obtain ⟨p, hp⟩ := s.exists_isle (s.idx cid) (isle.val - 2) (by omega)
    simp only [hp]
    exact h.addBehind hcid hlow hhigh (fun q hq => ⟨hone, hq ▸ hp⟩) nofun b
  · exact h.addBehind hcid hlow hhigh (by simp) (fun _ => by omega) b

theorem Inv.addNewBuffer {isle : Fin (2 ^ 8)} (hcid : s.idx cid < s.maxNumArchipelagos)
    (hlow : 1 ≤ isle.val) (hhigh : isle ≤ (s.isles (s.idx cid)).length) (b : β) (left : Bool) :
    Does s (s.addNewBuffer cid isle b left) n (s.lists.addNewBuffer (s.idx cid) isle b left) := by
  have hpos : (isle.val + 2 ^ 8 - 1) % 2 ^ 8 = isle - 1 := by omega
  obtain ⟨i, hi⟩ := s.exists_isle (s.idx cid) (isle.val - 1) (by omega)
  have hmem := mem_of_getElem? hi
  rw [OooInfo.addNewBuffer, seekIsle_eq hcid isle.isLt, hpos, hi]
  refine ⟨⟨h.filed, fun j hj => ?_, h.outside, h.quiet⟩, ?_, rfl, rfl⟩
  · have hne : j ≠ i := fun he => h.not_free hmem (he ▸ hj)
    exact (update_of_ne hne ..).trans (h.empty j hj)
  · ext1
    · have hother := fun d hd j hj => update_of_ne (fun he : j = i => h.not_mem hmem d hd (he ▸ hj))
        (if left then b :: s.buffers i else s.buffers i ++ [b]) s.buffers
      have htable := map_update_table s.isles hother (s.isles (s.idx cid))
      rw [update_eq_self,
        map_update_of_getElem? s.buffers (fun bs => if left then b :: bs else bs ++ [b]) (h.nodup _)
          hi] at htable
      exact htable
    · rfl
    · rfl
    · rfl

theorem map_erase {i k : ℕ} (hi : (s.isles c)[k]? = some i) :
    ((s.isles c).erase i).map s.buffers = (s.lists.isles c).eraseIdx k := by
  rw [erase_eq_eraseIdx (h.nodup c) hi]
  exact (eraseIdx_map ..).symm

theorem Inv.joinIsles {left : Fin (2 ^ 8)} (hcid : s.idx cid < s.maxNumArchipelagos)
    (hleft : left + 1 ≤ (s.isles (s.idx cid)).length) :
    Does s (s.joinIsles cid left) n (s.lists.joinIsles (s.idx cid) left) := by
  have hpos : ((left.val + 1) % 2 ^ 8 + 2 ^ 8 - 1) % 2 ^ 8 = left := by omega
  obtain ⟨r, hr⟩ := s.exists_isle (s.idx cid) left.val (by omega)
  have hmem := mem_of_getElem? hr
  have herase := map_erase h hr
  have hisle : (s.lists.isles (s.idx cid)).getD left.val [] = s.buffers r := by
    change (((s.isles (s.idx cid)).map s.buffers)[left.val]?).getD [] = _
    rw [getElem?_map, hr]
    rfl
  have hfree : (s.freeIsles ++ [r]).Perm (r :: s.freeIsles) := perm_append_singleton ..
  rw [OooInfo.joinIsles, seekIsle_eq hcid (mod_lt _ (by decide)), hpos, hr,
    OooLists.joinIsles, hisle]
  by_cases h0 : left.val = 0
  · simp only [h0, ne_eq, not_true_eq_false, if_false]
    rw [h0, eraseIdx_zero] at herase
    rw [← herase]
    exact h.giveBack hmem hfree rfl (fun _ _ => rfl) h.quiet
  · obtain ⟨l, hl⟩ := s.exists_isle (s.idx cid) (left.val - 1) (by omega)
    have hl' : ((s.isles (s.idx cid)).erase r)[left.val - 1]? = some l := by
      rw [erase_eq_eraseIdx (h.nodup _) hr, getElem?_eraseIdx_of_lt (by omega), hl]
    have hlmem := mem_of_getElem? hl
    have hseek : (s.unlinkIsle (s.idx cid) r).seekIsle cid left = some l := by
      have hself : (s.unlinkIsle (s.idx cid) r).isles (s.idx cid) = (s.isles (s.idx cid)).erase r :=
        update_self ..
      have hcid' : (s.unlinkIsle (s.idx cid) r).idx cid <
        (s.unlinkIsle (s.idx cid) r).maxNumArchipelagos := hcid
      rw [seekIsle_eq hcid' left.isLt, show (left.val + 2 ^ 8 - 1) % 2 ^ 8 = left - 1 by omega]
      exact (congrArg (·[left.val - 1]?) hself).trans hl'
    simp only [if_pos h0, hseek]
    rw [← herase, ← map_update_of_getElem? s.buffers (· ++ s.buffers r) ((h.nodup _).erase r) hl']
    exact h.giveBack hmem hfree rfl
      (fun j hj => update_of_ne (fun (he : j = l) => hj (he ▸ hlmem)) ..) h.quiet

/-! ## Deleting -/

theorem Inv.deleteIsle {cid i k : ℕ} (drop : ℕ) (hi : (s.isles (s.idx cid))[k]? = some i) :
    Does s (s.deleteIsle cid drop i) n
      { s.lists with
        isles := update s.lists.isles (s.idx cid)
          ((s.lists.isles (s.idx cid)).eraseIdx k)
        free := s.lists.free ++ s.buffers i
        freeIsles := s.lists.freeIsles + 1 } := by
  have hmem := mem_of_getElem? hi
  rw [← map_erase h hi]
  by_cases hempty : s.buffers i = []
  · rw [OooInfo.deleteIsle, if_pos (by rw [hempty]; rfl), hempty, append_nil]
    exact h.giveBack hmem (.refl _) (update_eq_self_iff.2 hempty.symm).symm (fun _ _ => rfl)
      fun hin => (mem_append.1 hin).elim h.quiet (by simp)
  · rw [OooInfo.deleteIsle, if_neg (by simpa using hempty)]
    exact h.giveBack hmem (.refl _) rfl (fun _ _ => rfl) h.quiet

end

theorem Does.idx {t : OooLists β} (h : Does s s' n t) (cid : ℕ) : s'.idx cid = s.idx cid := by
  rw [OooInfo.idx, OooInfo.idx, h.base]

theorem Does.trans {s'' : OooInfo β} {t t' : OooLists β} (h : Does s s' n t)
    (h' : Does s' s'' n t') :
    Does s s'' n t' :=
  ⟨h'.inv, h'.lists, h'.conns.trans h.conns, h'.base.trans h.base⟩

theorem Inv.deleteIsles (h : s.Inv n) {cid drop : ℕ} (m : ℕ)
    (hcid : s.idx cid < s.maxNumArchipelagos) (hlow : 1 ≤ drop) (hdrop : drop < 2 ^ 8)
    (hlen : drop + m ≤ (s.isles (s.idx cid)).length + 1) :
    Does s (deleteIsles cid drop m s) n (s.lists.deleteIsles (s.idx cid) drop m) := by
  induction m generalizing s with
  | zero =>
    rw [OooLists.deleteIsles_zero]
    exact ⟨h, rfl, rfl, rfl⟩
  | succ m ih =>
    obtain ⟨i, hi⟩ := s.exists_isle (s.idx cid) (drop - 1) (by omega)
    have hpos : (drop + 2 ^ 8 - 1) % 2 ^ 8 = drop - 1 := by omega
    have hdel := h.deleteIsle drop hi
    have hidx := hdel.idx cid
    have hlen' : ((s.deleteIsle cid drop i).isles (s.idx cid)).length =
        (s.isles (s.idx cid)).length - 1 := by
      have hlt : drop - 1 < ((s.isles (s.idx cid)).map s.buffers).length := by
        rw [length_map]
        omega
      have := congrArg (fun t => (t.isles (s.idx cid)).length) hdel.lists
      simpa [lists, length_eraseIdx_of_lt hlt] using this
    have hrest := ih hdel.inv (by rw [hidx, hdel.conns]; exact hcid) (by rw [hidx, hlen']; omega)
    rw [hidx, hdel.lists] at hrest
    rw [deleteIsles, seekIsle_eq hcid hdrop, hpos, hi]
    have hbs : (s.lists.isles (s.idx cid))[drop - 1]? = some (s.buffers i) := by
      change ((s.isles (s.idx cid)).map s.buffers)[drop - 1]? = _
      rw [getElem?_map, hi]
      rfl
    rw [← OooLists.deleteIsles_succ hbs]
    exact hdel.trans hrest

/-! ## Releasing -/

theorem drainIsle_eq {bs : List β} (hbs : s.buffers i = bs) :
    drainIsle i bs.length s =
      { s with
        freeBuffers := s.freeBuffers ++ bs
        buffers := update s.buffers i [] } := by
  induction bs generalizing s with
  | nil =>
    rw [append_nil, update_eq_self_iff.2 hbs.symm]
    rfl
  | cons b bs ih =>
    rw [length_cons, drainIsle, hbs]
    simp only
    rw [ih (update_self ..)]
    simp [setBuffers]

theorem Inv.drainArchipelago (h : s.Inv n) {l : List ℕ} (hl : s.isles c = l) :
    Does s (drainArchipelago c l.length s) n (s.lists.releaseConnectionIsles c) := by
  induction l generalizing s with
  | nil =>
    refine ⟨h, ?_, rfl, rfl⟩
    have hnil : s.lists.isles c = [] := by
      change (s.isles c).map s.buffers = []
      rw [hl, map_nil]
    rw [OooLists.releaseConnectionIsles, hnil]
    ext1
    · exact (update_eq_self_iff.2 hnil.symm).symm
    · rfl
    · exact (append_nil _).symm
    · rfl
  | cons i is ih =>
    have hmem : i ∈ s.isles c := hl ▸ mem_cons_self
    have hhead : (s.isles c)[0]? = some i := by rw [hl, getElem?_cons_zero]
    have htail : (s.isles c).erase i = is := by rw [hl, erase_cons_head]
    -- the state after one turn
    obtain ⟨s₁, hs₁⟩ : ∃ s₁ : OooInfo β, s₁ =
        { s with
          isles := update s.isles c is
          freeBuffers := s.freeBuffers ++ s.buffers i
          buffers := update s.buffers i []
          freeIsles := s.freeIsles ++ [i] } := ⟨_, rfl⟩
    have hturn : drainArchipelago c (is.length + 1) s = drainArchipelago c is.length s₁ := by
      rw [drainArchipelago, hl, hs₁]
      simp only
      rw [drainIsle_eq rfl]
      rfl
    have hdoes : Does s s₁ n
        { s.lists with
          isles := update s.lists.isles c (s.lists.isles c).tail
          free := s.lists.free ++ s.buffers i
          freeIsles := s.lists.freeIsles + 1 } := by
      rw [hs₁, ← eraseIdx_zero, ← map_erase h hhead, ← htail]
      exact h.giveBack hmem (perm_append_singleton ..) rfl (fun _ _ => rfl) h.quiet
    have hrest := ih hdoes.inv (by rw [hs₁]; exact update_self ..)
    rw [hdoes.lists] at hrest
    have hlists : s.lists.isles c = s.buffers i :: is.map s.buffers := by
      change (s.isles c).map s.buffers = _
      rw [hl, map_cons]
    rw [length_cons, hturn, ← OooLists.releaseConnectionIsles_cons hlists]
    exact hdoes.trans hrest

/-- **A call does to the lists what the operation does**, and keeps the nodes in order. -/
theorem Inv.step (h : s.Inv n) {op : OooOp β} (hop : s.Named op) :
    Does s (s.step op) n (s.lists.step s.idx op) := by
  obtain ⟨hcid, hop⟩ := hop
  cases op with
  | addNewIsle cid isle b => exact h.addNewIsle hcid hop.1 hop.2 b
  | addNewBuffer cid isle b left => exact h.addNewBuffer hcid hop.1 hop.2 b left
  | joinIsles cid left => exact h.joinIsles hcid hop
  | deleteIsles cid drop size => exact h.deleteIsles size hcid hop.1 drop.isLt hop.2
  | releaseConnectionIsles cid =>
    change Does s (s.releaseConnectionIsles cid) n (s.lists.releaseConnectionIsles (s.idx cid))
    have hrel := h.drainArchipelago (c := s.idx cid) rfl
    have hcid : s.idx cid < s.maxNumArchipelagos := hcid
    rw [releaseConnectionIsles, seekArchipelago, if_neg (by omega)]
    by_cases hnil : s.isles (s.idx cid) = []
    · rw [hnil] at hrel
      rw [if_pos (by rw [hnil]; rfl)]
      exact hrel
    · rw [if_neg (by simpa using hnil)]
      exact hrel

/-! ## Runs -/

theorem inv_alloc (m base : ℕ) (free : List β) :
    (alloc m base free).Inv ((QED_MAX_NUM_ISLES + m) % 2 ^ 16) := by
  refine ⟨⟨fun i => if i < (QED_MAX_NUM_ISLES + m) % 2 ^ 16 then some none else none,
    ⟨fun k => ?_, fun k i => ?_⟩, fun i => ?_⟩, fun _ _ => rfl, fun _ _ => rfl, by simp [alloc]⟩
  · cases k with
    | none => exact nodup_range
    | some c => exact nodup_nil
  · cases k with
    | none =>
      change i ∈ range _ ↔ _
      simp
    | some c =>
      change i ∈ [] ↔ _
      simp
  · simp

/-- The lists are those of the operations, free isles are empty, and no isle is lost. -/
structure Refines (s : OooInfo β) (t : OooLists β) (n : ℕ) : Prop where
  lists : s.lists = t
  empty : ∀ i ∈ s.freeIsles, s.buffers i = []
  quiet : freeIsleNotEmpty ∉ s.notices
  count : s.freeIsles.length +
    ((range s.maxNumArchipelagos).map fun c => (s.isles c).length).sum = n

/-- **The isles refine lists of lists.** In every run of calls that name connections and isles that
exist, the lists are those that the operations give, and the ready list holds the joined isles in
the order in which they were joined. A call changes the isles of its own connection only. -/
theorem refines_run (m base : ℕ) (free : List β) {ops : List (OooOp β)}
    (hops : Meets Named step (alloc m base free) ops) :
    (ops.foldl step (alloc m base free)).Refines
        (ops.foldl (OooLists.step (alloc m base free).idx) (alloc m base free).lists)
        ((QED_MAX_NUM_ISLES + m) % 2 ^ 16) ∧
      (ops.foldl step (alloc m base free)).readyBuffers =
        ((alloc m base free).lists.joined (alloc m base free).idx ops).flatten ∧
      ∀ op, (ops.foldl step (alloc m base free)).Named op →
        ∀ c, c ≠ (alloc m base free).idx op.cid →
          ((ops.foldl step (alloc m base free)).step op).lists.isles c =
            (ops.foldl step (alloc m base free)).lists.isles c := by
  -- the invariant, the lists so far, and that a connection keeps its number
  have hrun := hops.history (P := fun l s => s.Inv ((QED_MAX_NUM_ISLES + m) % 2 ^ 16) ∧
      s.lists = l.foldl (OooLists.step (alloc m base free).idx) (alloc m base free).lists ∧
      s.idx = (alloc m base free).idx)
    (fun l s op ⟨hinv, hlists, hidx⟩ hop => by
      have hdoes := hinv.step hop
      refine ⟨hdoes.inv, ?_, (funext hdoes.idx).trans hidx⟩
      rw [hdoes.lists, hlists, hidx, foldl_append, foldl_cons, foldl_nil])
    [] ⟨inv_alloc m base free, rfl, rfl⟩
  obtain ⟨hinv, hlists, hidx⟩ := hrun
  refine ⟨⟨hlists, hinv.empty, hinv.quiet, hinv.count⟩, ?_, fun op hop c hc => ?_⟩
  · have hready := congrArg OooLists.ready hlists
    rw [OooLists.ready_foldl] at hready
    exact hready
  · rw [(hinv.step hop).lists, hidx]
    exact OooLists.step_isles_of_ne _ op hc

end OooInfo

/-- A new isle, a second one before it, and both joined. -/
def twoIsles : List (OooOp ℕ) :=
  [.addNewIsle 16 (1#8).toFin 5, .addNewIsle 16 (1#8).toFin 4, .joinIsles 16 (1#8).toFin,
    .joinIsles 16 (0#8).toFin]

theorem OooInfo.refines_twoIsles :
    (twoIsles.foldl step (alloc 1 16 [7])).readyBuffers = [4, 5] := by
  have hops : Meets Named step (alloc 1 16 [7]) twoIsles := by
    decide +kernel
  have hready := (refines_run 1 16 [7] hops).2.1
  rw [hready]
  decide +kernel

/-- Without a free isle the call inserts nothing. -/
theorem OooInfo.not_insert_of_no_free_isle :
    Meets Named step (alloc 1 16 [])
        (replicate 258 (OooOp.addNewIsle 16 1 5)) ∧
      ((replicate 258 (OooOp.addNewIsle 16 1 5)).foldl step
          (alloc 1 16 [])).lists.isles 0 ≠
        (((replicate 257 (OooOp.addNewIsle 16 1 5)).foldl step
          (alloc 1 16 [])).lists.isles 0).insertIdx 0 [5] := by
  decide +kernel

end FastLinQ.Qed
