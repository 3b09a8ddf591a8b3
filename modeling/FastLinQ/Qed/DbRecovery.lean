import FastLinQ.Foundations.Run

/-!
# Doorbell recovery

Whoever has a doorbell registers it with the place where its last data can be found; after
doorbells were dropped, `qed_db_recovery_execute` rings all that are registered with an engine. An
entry goes to the list of the engine in whose range its address lies, and is removed by its data
pointer.

`DbSys.live` is a record of the doorbells that ought to be registered, in order. `qed_db_rec_sanity`
adds the width of a doorbell in bits to its address, so that it refuses doorbells near the end of a
range (`DbDev.Roomy`). Addresses are numbers: no range comes near the end of the address space.
-/

namespace FastLinQ.Qed

open List Function Bool

inductive DbRecWidth
  | w32
  | w64
  deriving DecidableEq, Repr

def DbRecWidth.bytes : DbRecWidth → ℕ
  | w32 => 4
  | w64 => 8

/-- The doorbell BAR; in CMT mode it is split between engine 0 (`false`) and engine 1 (`true`). -/
structure DbDev where
  isCmt : Bool
  doorbells : ℕ
  dbSize : Bool → ℕ

/-- `struct qed_db_recovery_entry`. -/
structure DbEntry where
  dbAddr : ℕ
  dbData : ℕ
  dbWidth : DbRecWidth
  deriving DecidableEq, Repr

inductive DbRc
  | ok
  | einval
  | enomem
  deriving DecidableEq, Repr

abbrev DbLists := Bool → List DbEntry

namespace DbDev

variable (d : DbDev)

/-- `doorbells` of an engine. -/
def start : Bool → ℕ
  | false => d.doorbells
  | true => d.doorbells + d.dbSize false

def stop (h : Bool) : ℕ := d.start h + d.dbSize h

def qedDbRecFindHwfn (dbAddr : ℕ) : Bool := d.isCmt && !decide (dbAddr < d.start true)

def qedDbRecSanity (e : DbEntry) : Bool :=
  let h := d.qedDbRecFindHwfn e.dbAddr
  let width := if e.dbWidth = .w32 then 32 else 64
  if e.dbAddr < d.start h ∨ d.stop h < e.dbAddr + width then false else e.dbData ≠ 0

/-- `qed_db_recovery_add`; `alloc` is the answer of `kzalloc`. -/
def qedDbRecoveryAdd (s : DbLists) (e : DbEntry) (alloc : Bool) : DbRc × DbLists :=
  let h := d.qedDbRecFindHwfn e.dbAddr
  if !d.qedDbRecSanity e then (.einval, s)
  else if !alloc then (.enomem, s)
  else (.ok, update s h (s h ++ [e]))

def qedDbRecoveryDel (s : DbLists) (dbAddr dbData : ℕ) : DbRc × DbLists :=
  let h := d.qedDbRecFindHwfn dbAddr
  if (s h).any (·.dbData = dbData) then (.ok, update s h ((s h).eraseP (·.dbData = dbData)))
  else (.einval, s)

end DbDev

structure DbWrite where
  addr : ℕ
  width : DbRecWidth
  data : ℕ
  deriving DecidableEq, Repr

/-- `qed_db_recovery_ring`: the write of the data that the memory has now. -/
def qedDbRecoveryRing (mem : ℕ → ℕ) (e : DbEntry) : DbWrite :=
  ⟨e.dbAddr, e.dbWidth,
    Nat.ofDigits (2 ^ 8) ((range e.dbWidth.bytes).map fun i => mem (e.dbData + i))⟩

def qedDbRecoveryExecute (mem : ℕ → ℕ) (s : DbLists) (h : Bool) : List DbWrite :=
  (s h).map (qedDbRecoveryRing mem)

/-! ## What is to be registered -/

namespace DbDev

variable (d : DbDev)

/-- The register lies in the range of the engine. -/
def Inside (e : DbEntry) (h : Bool) : Prop :=
  (h = true → d.isCmt = true) ∧ d.start h ≤ e.dbAddr ∧ e.dbAddr + e.dbWidth.bytes ≤ d.stop h
  deriving Decidable

/-- The register lies in the range of an engine, and the data pointer is not null. -/
def Accepts (e : DbEntry) : Prop := (∃ h, d.Inside e h) ∧ e.dbData ≠ 0
  deriving Decidable

/-- A register that ought to be accepted is not among the last of its range, those that 32 or 64
bytes do not fit behind. -/
def Roomy (e : DbEntry) (alloc : Bool) : Prop :=
  d.Accepts e ∧ alloc = true → e.dbAddr + 8 * e.dbWidth.bytes ≤ d.stop (d.qedDbRecFindHwfn e.dbAddr)
  deriving Decidable

end DbDev

inductive DbCall
  | add (e : DbEntry) (alloc : Bool)
  | del (dbAddr dbData : ℕ)
  deriving DecidableEq, Repr

structure DbSys where
  lists : DbLists
  live : List DbEntry

namespace DbSys

variable {d : DbDev} {s : DbSys} {e : DbEntry} {h : Bool}

def step (d : DbDev) (s : DbSys) : DbCall → DbSys
  | .add e alloc =>
    ⟨(d.qedDbRecoveryAdd s.lists e alloc).2,
      if d.Accepts e ∧ alloc = true then s.live ++ [e] else s.live⟩
  | .del dbAddr dbData =>
    ⟨(d.qedDbRecoveryDel s.lists dbAddr dbData).2, s.live.filter (·.dbData ≠ dbData)⟩

def start : DbSys := ⟨fun _ => [], []⟩

/-- Data pointers are distinct, an entry is removed with the address it was added with, and
registers that are added are not among the last of their range. -/
def Regular (d : DbDev) (s : DbSys) : DbCall → Prop
  | .add e alloc => (∀ x ∈ s.live, x.dbData ≠ e.dbData) ∧ d.Roomy e alloc
  | .del dbAddr dbData => ∀ x ∈ s.live, x.dbData = dbData → x.dbAddr = dbAddr

instance (d : DbDev) (s : DbSys) (c : DbCall) : Decidable (Regular d s c) := by
  unfold Regular
  cases c <;> infer_instance

/-- An add is accepted just if it ought to be, unless it is among the last of a range, and an engine
rings the doorbells of its range. -/
structure Rings (d : DbDev) (s : DbSys) : Prop where
  add : ∀ e alloc, ((d.qedDbRecoveryAdd s.lists e alloc).1 = .ok ↔ d.Accepts e ∧ alloc = true) ↔
    d.Roomy e alloc
  execute : ∀ mem h, qedDbRecoveryExecute mem s.lists h =
    (s.live.filter (d.Inside · h)).map (qedDbRecoveryRing mem)

/-! ## The lists -/

theorem find_of_inside (hin : d.Inside e h) : d.qedDbRecFindHwfn e.dbAddr = h := by
  obtain ⟨hcmt, hstart, hstop⟩ := hin
  have hpos : 0 < e.dbWidth.bytes := by cases e.dbWidth <;> decide
  cases h with
  | false =>
    have hlt : e.dbAddr < d.start true := by
      change _ ≤ d.start true at hstop
      omega
    simp [DbDev.qedDbRecFindHwfn, hlt]
  | true => simp [DbDev.qedDbRecFindHwfn, hcmt rfl, hstart]

theorem accepts_iff :
    d.Accepts e ↔ d.Inside e (d.qedDbRecFindHwfn e.dbAddr) ∧ e.dbData ≠ 0 := by
  refine and_congr_left fun _ => ⟨fun ⟨h, hin⟩ => ?_, fun hin => ⟨_, hin⟩⟩
  rw [find_of_inside hin]
  exact hin

/-- The check asks for eight times the bytes of the register. -/
theorem sanity_iff : d.qedDbRecSanity e = true ↔
    d.Accepts e ∧ e.dbAddr + 8 * e.dbWidth.bytes ≤ d.stop (d.qedDbRecFindHwfn e.dbAddr) := by
  have hwidth : (if e.dbWidth = .w32 then 32 else 64) = 8 * e.dbWidth.bytes := by
    cases e.dbWidth <;> rfl
  have hcmt : d.qedDbRecFindHwfn e.dbAddr = true → d.isCmt = true := fun hfind =>
    (and_eq_true_iff.1 hfind).1
  simp only [DbDev.qedDbRecSanity, hwidth, accepts_iff, DbDev.Inside]
  split
  · rename_i hout
    simp only [false_eq_true, false_iff]
    omega
  · rename_i hin
    simp only [decide_eq_true_eq]
    exact ⟨fun hdata => ⟨⟨⟨hcmt, by omega, by omega⟩, hdata⟩, by omega⟩, fun hall => hall.1.2⟩

theorem add_rc (lists : DbLists) (alloc : Bool) :
    (d.qedDbRecoveryAdd lists e alloc).1 = .ok ↔ d.qedDbRecSanity e = true ∧ alloc = true := by
  unfold DbDev.qedDbRecoveryAdd
  cases d.qedDbRecSanity e <;> cases alloc <;> simp

theorem add_lists (lists : DbLists) (alloc : Bool) :
    (d.qedDbRecoveryAdd lists e alloc).2 = if d.qedDbRecSanity e = true ∧ alloc = true then
      update lists (d.qedDbRecFindHwfn e.dbAddr) (lists (d.qedDbRecFindHwfn e.dbAddr) ++ [e])
    else lists := by
  unfold DbDev.qedDbRecoveryAdd
  cases d.qedDbRecSanity e <;> cases alloc <;> simp

theorem eraseP_eq_filter {l : List DbEntry} (hl : (l.map DbEntry.dbData).Nodup) (k : ℕ) :
    l.eraseP (·.dbData = k) = l.filter (·.dbData ≠ k) := by
  induction l with
  | nil => rfl
  | cons x l ih =>
    obtain ⟨hx, hl⟩ := nodup_cons.1 hl
    by_cases hk : x.dbData = k
    · have hrest : l.filter (·.dbData ≠ k) = l := by
        refine filter_eq_self.2 fun y hy => decide_eq_true fun hyk => hx ?_
        rw [hk, ← hyk]
        exact mem_map_of_mem hy
      simpa [hk] using hrest.symm
    · simpa [hk] using ih hl

structure Inv (d : DbDev) (s : DbSys) : Prop where
  lists : ∀ h, s.lists h = s.live.filter (d.qedDbRecFindHwfn ·.dbAddr = h)
  inside : ∀ e ∈ s.live, d.Inside e (d.qedDbRecFindHwfn e.dbAddr)
  nodup : (s.live.map DbEntry.dbData).Nodup

theorem Inv.add (hs : Inv d s) {alloc : Bool} (hok : Regular d s (.add e alloc)) :
    Inv d (s.step d (.add e alloc)) := by
  obtain ⟨hnew, hroomy⟩ := hok
  rw [step, add_lists]
  simp only [sanity_iff]
  by_cases hacc : d.Accepts e ∧ alloc = true
  · rw [if_pos ⟨⟨hacc.1, hroomy hacc⟩, hacc.2⟩, if_pos hacc]
    refine ⟨fun h => ?_, forall_mem_append.2 ⟨hs.inside, ?_⟩, ?_⟩
    · rw [filter_append, ← hs.lists h]
      by_cases hh : h = d.qedDbRecFindHwfn e.dbAddr
      · subst hh
        simp
      · simp [hh, Ne.symm hh]
    · exact forall_mem_singleton.2 (accepts_iff.1 hacc.1).1
    · rw [map_append]
      exact nodup_append.2 ⟨hs.nodup, by simp, by simpa using hnew⟩
  · rw [if_neg fun h => hacc ⟨h.1.1, h.2⟩, if_neg hacc]
    exact hs

theorem Inv.del (hs : Inv d s) {dbAddr dbData : ℕ} (hok : Regular d s (.del dbAddr dbData)) :
    Inv d (s.step d (.del dbAddr dbData)) := by
  have hdel : (d.qedDbRecoveryDel s.lists dbAddr dbData).2 =
      update s.lists (d.qedDbRecFindHwfn dbAddr)
        ((s.lists (d.qedDbRecFindHwfn dbAddr)).eraseP (·.dbData = dbData)) := by
    unfold DbDev.qedDbRecoveryDel
    dsimp only
    split
    · rfl
    · rename_i hnone
      rw [eraseP_of_forall_not (by simpa using hnone), update_eq_self]
  rw [step, hdel]
  refine ⟨fun h => ?_, fun x hx => hs.inside x (mem_filter.1 hx).1,
    hs.nodup.sublist (filter_sublist.map _)⟩
  dsimp only
  rw [filter_filter]
  by_cases hh : h = d.qedDbRecFindHwfn dbAddr
  · subst hh
    rw [update_self, hs.lists, eraseP_eq_filter (hs.nodup.sublist (filter_sublist.map _)),
      filter_filter]
    exact filter_congr fun x _ => and_comm _ _
  · rw [update_of_ne hh, hs.lists]
    refine filter_congr fun x hx => ?_
    have hdata : d.qedDbRecFindHwfn x.dbAddr = h → x.dbData ≠ dbData := fun hfind heq =>
      hh (by rw [← hfind, hok x hx heq])
    simpa using hdata

theorem Inv.rings (hs : Inv d s) : Rings d s := by
  refine ⟨fun e alloc => ?_, fun mem h => ?_⟩
  · rw [add_rc, sanity_iff, DbDev.Roomy]
    tauto
  · rw [qedDbRecoveryExecute, hs.lists]
    refine congrArg _ (filter_congr fun x hx => decide_eq_decide.2
      ⟨fun hfind => ?_, find_of_inside⟩)
    rw [← hfind]
    exact hs.inside x hx

/-- **Doorbell recovery.** In a run of calls with distinct data pointers, each entry being removed
with the address it was added with and no register that is added being among the last of its range,
the doorbells that an engine rings are those that were added and not removed, in order, each with
the data that the memory has. -/
theorem db_recovery_rings {l : List DbCall} (hl : Run.Meets (Regular d) (step d) start l) :
    Rings d (l.foldl (step d) start) := by
  have hstart : Inv d start := ⟨fun _ => rfl, nofun, nodup_nil⟩
  refine (hl.invariant (fun s c hs hok => ?_) hstart).rings
  cases c with
  | add e alloc => exact hs.add hok
  | del dbAddr dbData => exact hs.del hok

def cmtDev : DbDev := ⟨true, 0x1000, fun _ => 0x1000⟩

def removeOne : List DbCall :=
  [.add ⟨0x1000, 1, .w32⟩ true, .add ⟨0x2000, 2, .w64⟩ true, .del 0x1000 1]

theorem db_recovery_rings_cmt : Rings cmtDev (removeOne.foldl (step cmtDev) start) :=
  db_recovery_rings (by decide)

/-- The last register of engine 0 is refused, and is not rung. -/
theorem not_db_recovery_rings :
    cmtDev.Accepts ⟨0x1ffc, 1, .w32⟩ ∧
      (cmtDev.qedDbRecoveryAdd start.lists ⟨0x1ffc, 1, .w32⟩ true).1 = .einval ∧
      ¬ Rings cmtDev ([.add ⟨0x1ffc, 1, .w32⟩ true].foldl (step cmtDev) start) :=
  ⟨by decide, by decide, fun h => absurd (h.execute (fun _ => 0) false) (by decide)⟩

end DbSys

end FastLinQ.Qed
