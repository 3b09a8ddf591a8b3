import FastLinQ.Foundations.Counted
import FastLinQ.Foundations.Run
import FastLinQ.Qed.Llh.Shadow

/-!
# The shadow of the LLH filters is a multiset

The shadow of a bank is meant as a multiset of filters, and the registers of the bank as its image.
`LlhRun` keeps, next to the system, how often each filter was added and removed with success since
its bank was last cleared. `LlhRun.Refines` says that shadow and registers agree with it.

The agreement is kept by every call that is `Sound`: the byte search finds no filter of the other
kind and no free entry in place of the entry of an all-zero filter, the reference count does not
wrap, and no write by the DMA engine fails that the shadow has already taken for done.
-/

namespace FastLinQ.Qed

open Run Function Option LlhSys Counted LlhFilterInfo LlhProtFilterType Finset

/-! ## What a call asks for -/

/-- What a call does once its own checks are passed: classification of its kind is on, the function
is no VF, a PTT window is free, and the protocol type is known. -/
inductive LlhOp
  | add (ppfid : ℕ) (k : LlhKey) (dmae : DmaeWrite)
  | remove (ppfid : ℕ) (k : LlhKey) (dmae : DmaeWrite)
  | clear (ppfid : ℕ) (dmae : ℕ → DmaeWrite)

variable (dev : LlhDev)

def macKey (ptt : Bool) (addr : MacAddr) : Option LlhKey :=
  if dev.macClss && !dev.isVf && ptt then some (.mac addr) else none

def protocolKey (ptt : Bool) (type : ℕ) (src dst : BitVec 16) : Option LlhKey :=
  if ptt && dev.protoClss then
    (ofCode type).map fun t => .protocol t src dst
  else none

def LlhCall.op : LlhCall → Option LlhOp
  | addMac p ptt addr dmae => (macKey dev ptt addr).map fun k => .add p k dmae
  | addProtocol p ptt type src dst dmae =>
    (protocolKey dev ptt type src dst).map fun k => .add p k dmae
  | removeMac p ptt addr dmae => (macKey dev ptt addr).map fun k => .remove p k dmae
  | removeProtocol p ptt type src dst dmae =>
    (protocolKey dev ptt type src dst).map fun k => .remove p k dmae
  | clearPpfid p ptt dmae =>
    if ptt && (dev.protoClss || dev.macClss) then some (.clear p dmae) else none

def LlhOp.run (s : LlhSys) : LlhOp → Except LlhErr Unit × LlhSys
  | add p k dmae => s.addFilter dev p k dmae
  | remove p k dmae => s.removeFilter dev p k dmae
  | clear p dmae => s.clearFilters dev p dmae

variable {dev}

variable {s : LlhSys}

theorem LlhSys.macCall_eq {ptt : Bool} {f : Except LlhErr Unit × LlhSys} :
    (dev.macClss && !dev.isVf && ptt → s.macCall dev ptt f = f) ∧
      (¬(dev.macClss && !dev.isVf && ptt) → (s.macCall dev ptt f).2 = s) := by
  unfold macCall
  cases dev.macClss <;> cases dev.isVf <;> cases ptt <;> simp

theorem LlhSys.protocolCall_eq {ptt : Bool} {type : ℕ}
    {f : LlhProtFilterType → Except LlhErr Unit × LlhSys} :
    (∀ t, ptt && dev.protoClss → ofCode type = some t → s.protocolCall dev ptt type f = f t) ∧
      (¬(ptt && dev.protoClss) ∨ ofCode type = none → (s.protocolCall dev ptt type f).2 = s) := by
  unfold protocolCall
  cases dev.protoClss <;> cases ptt <;> cases ofCode type <;> simp

theorem LlhCall.run_of_op {c : LlhCall} {o : LlhOp} (h : c.op dev = some o) :
    c.run dev s = o.run dev s := by
  cases c with
  | addMac p ptt addr dmae | removeMac p ptt addr dmae =>
    simp only [op, macKey, map_eq_some_iff, ite_none_right_eq_some, Option.some.injEq] at h
    obtain ⟨k, ⟨hgate, rfl⟩, rfl⟩ := h
    exact macCall_eq.1 hgate
  | addProtocol p ptt type src dst dmae | removeProtocol p ptt type src dst dmae =>
    simp only [op, protocolKey, map_eq_some_iff, ite_none_right_eq_some] at h
    obtain ⟨k, ⟨hgate, t, ht, rfl⟩, rfl⟩ := h
    exact protocolCall_eq.1 t hgate ht
  | clearPpfid p ptt dmae =>
    simp only [op, ite_none_right_eq_some, Option.some.injEq] at h
    obtain ⟨hgate, rfl⟩ := h
    simp only [run, qedLlhClearPpfidFilters, LlhOp.run]
    revert hgate
    cases ptt <;> cases dev.protoClss <;> cases dev.macClss <;> simp

/-- A call that does not pass its checks changes nothing. -/
theorem LlhCall.run_of_op_none {c : LlhCall} (h : c.op dev = none) : (c.run dev s).2 = s := by
  cases c with
  | addMac p ptt addr dmae | removeMac p ptt addr dmae =>
    simp only [op, macKey, map_eq_none_iff, ite_eq_right_iff, reduceCtorEq, imp_false] at h
    exact macCall_eq.2 h
  | addProtocol p ptt type src dst dmae | removeProtocol p ptt type src dst dmae =>
    simp only [op, protocolKey, map_eq_none_iff, ite_eq_right_iff] at h
    exact protocolCall_eq.2 (Decidable.not_or_of_imp h)
  | clearPpfid p ptt dmae =>
    simp only [op, ite_eq_right_iff, reduceCtorEq, imp_false] at h
    simp only [run, qedLlhClearPpfidFilters]
    revert h
    cases ptt <;> cases dev.protoClss <;> cases dev.macClss <;> simp

variable (dev)

/-! ## Runs with the history of the filters -/

/-- The system, and for each ppfid and filter the successful adds less the successful removes since
the bank was cleared. -/
structure LlhRun where
  sys : LlhSys
  counts : ℕ → LlhKey → ℤ

namespace LlhRun

/-- What one operation that ends with `rc` means for the counts. -/
def tally (rc : Except LlhErr Unit) (counts : ℕ → LlhKey → ℤ) : LlhOp → ℕ → LlhKey → ℤ
  | .add p k _ =>
    if rc = .ok () then
      Function.update counts p (Function.update (counts p) k (counts p k + 1))
    else counts
  | .remove p k _ =>
    if rc = .ok () then
      Function.update counts p (Function.update (counts p) k (counts p k - 1))
    else counts
  | .clear p _ => Function.update counts p fun _ => 0

def step (r : LlhRun) (c : LlhCall) : LlhRun :=
  let res := c.run dev r.sys
  { sys := res.2
    counts := match c.op dev with
      | none => r.counts
      | some o => tally res.1 r.counts o }

/-- The driver starts with an empty shadow, and with the filters of the function disabled. -/
def start (hw : ℕ → ℕ → LlhFilterDetails) : LlhRun :=
  { sys := { ppFilters := fun _ _ => .zero, hw := hw }, counts := fun _ _ => 0 }

/-- How often the shadow of a bank holds a filter. -/
def shadowCount (s : LlhSys) (ppfid : ℕ) (k : LlhKey) : ℕ :=
  ∑ i ∈ range NIG_REG_LLH_FUNC_FILTER_EN_SIZE,
    if (s.ppFilters ppfid i).Holds k then (s.ppFilters ppfid i).refCnt else 0

/-- Shadow and registers of the bank of `ppfid`, whose absolute number is `a`, agree with the
counts: the shadow holds each filter as often as counted and in one entry at most; the registers at
the entry of a filter are enabled with the value of the filter exactly if its count is positive; and
no other registers are enabled, so that a value is in enabled registers exactly if a filter of that
value has a positive count. -/
structure RefinesBank (r : LlhRun) (ppfid a : ℕ) : Prop where
  count : ∀ k, (shadowCount r.sys ppfid k : ℤ) = r.counts ppfid k
  atMostOne : ∀ k, ∀ i < NIG_REG_LLH_FUNC_FILTER_EN_SIZE, ∀ j < NIG_REG_LLH_FUNC_FILTER_EN_SIZE,
    (r.sys.ppFilters ppfid i).Holds k → (r.sys.ppFilters ppfid j).Holds k → i = j
  enabled : ∀ k, (∃ i < NIG_REG_LLH_FUNC_FILTER_EN_SIZE,
    (r.sys.ppFilters ppfid i).Holds k ∧ r.sys.hw a i = k.details dev) ↔ 0 < r.counts ppfid k
  onlyEnabled : ∀ i < NIG_REG_LLH_FUNC_FILTER_EN_SIZE, (r.sys.hw a i).enable ≠ 0 →
    ∃ k, (r.sys.ppFilters ppfid i).Holds k
  value : ∀ k : LlhKey, (∃ i < NIG_REG_LLH_FUNC_FILTER_EN_SIZE, r.sys.hw a i = k.details dev) ↔
    ∃ k', k'.details dev = k.details dev ∧ 0 < r.counts ppfid k'

def Refines (r : LlhRun) : Prop :=
  ∀ ppfid a, dev.ppfidArray[ppfid]? = some a → r.RefinesBank dev ppfid a

end LlhRun

/-! ## The calls that keep the agreement -/

section Sound

variable (bank : ℕ → LlhFilterInfo) (k : LlhKey) (dmae : DmaeWrite)

/-- An add is in order, by what the byte search finds. It finds the entry of this very filter, and
the reference count does not wrap; or the filter is not in the shadow, no entry in use is found, and
the write of the value is done (unless there is no entry left). -/
def AddSound : Option ℕ → Prop
  | none => dmae = .done ∨ firstFilter (fun e => !e.bEnabled) bank = none
  | some i =>
    ((bank i).Holds k ∧ (bank i).refCnt + 1 < 2 ^ 32) ∨ ((bank i).bEnabled = false ∧ dmae = .done ∧
        ∀ j < NIG_REG_LLH_FUNC_FILTER_EN_SIZE, ¬(bank j).Holds k)

/-- A remove is in order: the entry that is found does not hold another filter, and the write that
follows the last reference is done. -/
def RemoveSound : Option ℕ → Prop
  | none => True
  | some i =>
    (bank i).bEnabled = false ∨ ((bank i).Holds k ∧ ((bank i).refCnt = 1 → dmae = .done))

instance AddSound.decidable : ∀ found, Decidable (AddSound bank k dmae found)
  | none => inferInstanceAs (Decidable (_ ∨ _))
  | some _ => inferInstanceAs (Decidable (_ ∨ _))

instance RemoveSound.decidable : ∀ found, Decidable (RemoveSound bank k dmae found)
  | none => inferInstanceAs (Decidable True)
  | some _ => inferInstanceAs (Decidable (_ ∨ _))

end Sound

/-- The operation keeps shadow, registers and counts in agreement. For a clear, no filter is in use
behind one whose write fails. -/
def LlhOp.Sound (s : LlhSys) : LlhOp → Prop
  | add p k dmae => p < dev.numPpfid →
    AddSound (s.ppFilters p) k dmae (searchFilter k.bytes (s.ppFilters p))
  | remove p k dmae => p < dev.numPpfid →
    RemoveSound (s.ppFilters p) k dmae (searchFilter k.bytes (s.ppFilters p))
  | clear p dmae => p < dev.numPpfid →
    ∀ j < NIG_REG_LLH_FUNC_FILTER_EN_SIZE, ∀ i < NIG_REG_LLH_FUNC_FILTER_EN_SIZE,
      j < i → dmae j ≠ .done → (s.ppFilters p i).bEnabled = false

instance LlhOp.decidableSound (s : LlhSys) : ∀ o, Decidable (LlhOp.Sound dev s o)
  | .add .. | .remove .. | .clear .. => inferInstanceAs (Decidable (_ < dev.numPpfid → _))

def LlhRun.Sound (r : LlhRun) (c : LlhCall) : Prop := ∀ o ∈ c.op dev, o.Sound dev r.sys

instance LlhRun.decidableSound (r : LlhRun) (c : LlhCall) : Decidable (r.Sound dev c) :=
  inferInstanceAs (Decidable (∀ o ∈ c.op dev, o.Sound dev r.sys))

variable {dev}

/-! ## One bank -/

variable (dev) in
/-- An entry of the shadow and its registers, by the filter they are meant to hold. -/
def Entry : Option (LlhKey × ℕ) → LlhFilterInfo → LlhFilterDetails → Prop
  | none, e, row => e = .zero ∧ row.enable = 0
  | some (k, c), e, row => 0 < c ∧ e = ⟨true, c, k.kind, k.bytes⟩ ∧ row = k.details dev

namespace Entry

variable {x : Option (LlhKey × ℕ)} {e : LlhFilterInfo} {row : LlhFilterDetails} {k : LlhKey}

section

variable (h : Entry dev x e row)

include h

theorem holds_iff : e.Holds k ↔ ∃ c, x = some (k, c) := by
  cases x with
  | none =>
    obtain ⟨rfl, -⟩ := h
    simp [Holds, zero]
  | some y =>
    obtain ⟨k', c⟩ := y
    obtain ⟨-, rfl, -⟩ := h
    constructor
    · rintro ⟨-, hkind, hbytes⟩
      exact ⟨c, by rw [LlhKey.eq_of_bytes hkind hbytes]⟩
    · rintro ⟨c', hc⟩
      cases hc
      exact ⟨rfl, rfl, rfl⟩

theorem of_holds (he : e.Holds k) :
    x = some (k, e.refCnt) ∧ 0 < e.refCnt ∧ row = k.details dev := by
  obtain ⟨c, rfl⟩ := h.holds_iff.1 he
  obtain ⟨hc, rfl, hrow⟩ := h
  exact ⟨rfl, hc, hrow⟩

theorem of_disabled (he : e.bEnabled = false) : x = none ∧ e = .zero ∧ row.enable = 0 := by
  cases x with
  | none => exact ⟨rfl, h⟩
  | some y =>
    obtain ⟨-, rfl, -⟩ := h
    exact nomatch he

theorem amount_eq : amount k x = if e.Holds k then e.refCnt else 0 := by
  split
  · next he => rw [(h.of_holds he).1]; exact if_pos rfl
  · next he =>
    cases x with
    | none => rfl
    | some y =>
      obtain ⟨k', c⟩ := y
      exact if_neg fun hk : k' = k => he (h.holds_iff.2 ⟨c, by rw [hk]⟩)

theorem enabled_iff : row.enable ≠ 0 ↔ ∃ k c, x = some (k, c) := by
  cases x with
  | none => simp [h.2]
  | some y =>
    obtain ⟨k, c⟩ := y
    obtain ⟨-, -, rfl⟩ := h
    simp [LlhKey.details, addDetails]

end

end Entry

variable (dev) in
/-- The bank, its registers and the counts are those of one table of counted filters. -/
structure BankAgrees (bank : ℕ → LlhFilterInfo) (rows : ℕ → LlhFilterDetails) (counts : LlhKey → ℤ)
    (v : ℕ → Option (LlhKey × ℕ)) : Prop where
  entry : ∀ i < NIG_REG_LLH_FUNC_FILTER_EN_SIZE, Entry dev (v i) (bank i) (rows i)
  distinct : Distinct NIG_REG_LLH_FUNC_FILTER_EN_SIZE v
  count : ∀ k, counts k = count NIG_REG_LLH_FUNC_FILTER_EN_SIZE v k

namespace BankAgrees

variable {bank : ℕ → LlhFilterInfo} {rows : ℕ → LlhFilterDetails} {counts : LlhKey → ℤ}
  {v : ℕ → Option (LlhKey × ℕ)} {k : LlhKey} {i : ℕ}

section

variable (h : BankAgrees dev bank rows counts v)

include h

section

variable (hi : i < NIG_REG_LLH_FUNC_FILTER_EN_SIZE)

include hi

theorem at_iff : At v i k ↔ (bank i).Holds k := (h.entry i hi).holds_iff.symm

/-- One entry and its registers are changed, and the count of one filter with them. -/
theorem update {x : Option (LlhKey × ℕ)} {e : LlhFilterInfo} {row : LlhFilterDetails} {d : ℤ}
    (hd : Distinct NIG_REG_LLH_FUNC_FILTER_EN_SIZE (Function.update v i x))
    (he : Entry dev x e row) (hk : (amount k x : ℤ) = amount k (v i) + d)
    (hother : ∀ k', k' ≠ k → amount k' x = amount k' (v i)) :
    BankAgrees dev (Function.update bank i e) (Function.update rows i row)
      (Function.update counts k (counts k + d)) (Function.update v i x) := by
  refine ⟨fun j hj => ?_, hd, fun k' => ?_⟩
  · by_cases hji : j = i
    · rw [hji, update_self, update_self, update_self]
      exact he
    · rw [update_of_ne hji, update_of_ne hji, update_of_ne hji]
      exact h.entry j hj
  · have hsum := count_update hi x k' (v := v)
    have hcount := h.count k'
    by_cases hkk : k' = k
    · rw [hkk] at hsum hcount ⊢
      rw [update_self]
      omega
    · rw [update_of_ne hkk]
      have hsame := hother k' hkk
      omega

/-- Only the count of a filter that is there changes. -/
theorem recount (hholds : (bank i).Holds k) {c : ℕ} {d : ℤ} (hc : 0 < c)
    (hd : (c : ℤ) = (bank i).refCnt + d) :
    ∃ v', BankAgrees dev (Function.update bank i ⟨true, c, k.kind, k.bytes⟩) rows
      (Function.update counts k (counts k + d)) v' := by
  obtain ⟨hv, -, hrow⟩ := (h.entry i hi).of_holds hholds
  have hothers : ∀ j < NIG_REG_LLH_FUNC_FILTER_EN_SIZE, j ≠ i → ¬At v j k :=
    fun j hj hji hat => hji (h.distinct k j hj i hi hat ⟨_, hv⟩)
  refine ⟨Function.update v i (some (k, c)), ?_⟩
  rw [← update_eq_self i rows]
  refine h.update hi (h.distinct.put hothers) ⟨hc, rfl, hrow⟩ ?_ fun k' hk' => ?_
  · rw [hv]
    simp [amount, hd]
  · rw [hv]
    simp [amount, hk'.symm]

theorem raise (hholds : (bank i).Holds k) (hwrap : (bank i).refCnt + 1 < 2 ^ 32) :
    ∃ v', BankAgrees dev (Function.update bank i ((bank i).add k.kind k.bytes)) rows
      (Function.update counts k (counts k + 1)) v' := by
  have hpos := ((h.entry i hi).of_holds hholds).2.1
  have hadd : (bank i).add k.kind k.bytes = ⟨true, (bank i).refCnt + 1, k.kind, k.bytes⟩ := by
    obtain ⟨hen, hkind, hbytes⟩ := hholds
    rw [add, if_neg (by omega), Nat.mod_eq_of_lt hwrap, ← hen, ← hkind, ← hbytes]
  rw [hadd]
  exact h.recount hi hholds (by omega) (by omega)

theorem addNew (hfree : (bank i).bEnabled = false)
    (hnot : ∀ j < NIG_REG_LLH_FUNC_FILTER_EN_SIZE, ¬(bank j).Holds k) :
    ∃ v', BankAgrees dev (Function.update bank i ((bank i).add k.kind k.bytes))
      (Function.update rows i (k.details dev)) (Function.update counts k (counts k + 1)) v' := by
  obtain ⟨hv, hzero, -⟩ := (h.entry i hi).of_disabled hfree
  have hadd : (bank i).add k.kind k.bytes = ⟨true, 1, k.kind, k.bytes⟩ := by
    rw [hzero]
    rfl
  have hothers : ∀ j < NIG_REG_LLH_FUNC_FILTER_EN_SIZE, j ≠ i → ¬At v j k :=
    fun j hj _ hat => hnot j hj ((h.at_iff hj).1 hat)
  refine ⟨Function.update v i (some (k, 1)), ?_⟩
  refine h.update hi (h.distinct.put hothers) ⟨one_pos, hadd, rfl⟩ ?_ fun k' hk' => ?_
  · rw [hv]
    simp [amount]
  · rw [hv]
    simp [amount, hk'.symm]

theorem lower (hholds : (bank i).Holds k) (href : 1 < (bank i).refCnt) :
    ∃ v', BankAgrees dev (Function.update bank i (bank i).remove) rows
      (Function.update counts k (counts k - 1)) v' := by
  have hrem : (bank i).remove = ⟨true, (bank i).refCnt - 1, k.kind, k.bytes⟩ := by
    obtain ⟨hen, hkind, hbytes⟩ := hholds
    rw [remove, if_neg (by omega), ← hen, ← hkind, ← hbytes]
  rw [hrem, sub_eq_add_neg]
  exact h.recount hi hholds (by omega) (by omega)

theorem removeLast (hholds : (bank i).Holds k) (href : (bank i).refCnt = 1) :
    ∃ v', BankAgrees dev (Function.update bank i (bank i).remove)
      (Function.update rows i ⟨0, 0, 0, 0, 0⟩) (Function.update counts k (counts k - 1)) v' := by
  obtain ⟨hv, -, -⟩ := (h.entry i hi).of_holds hholds
  have hrem : (bank i).remove = .zero := by rw [remove, href, if_pos rfl]
  refine ⟨Function.update v i none, ?_⟩
  rw [sub_eq_add_neg]
  refine h.update hi (h.distinct.take i) ⟨hrem, rfl⟩ ?_ fun k' hk' => ?_
  · rw [hv, href]
    simp [amount]
  · rw [hv]
    simp [amount, hk'.symm]

end

end

theorem empty (hrows : ∀ i < NIG_REG_LLH_FUNC_FILTER_EN_SIZE, (rows i).enable = 0) :
    BankAgrees dev (fun _ => .zero) rows (fun _ => 0) fun _ => none := by
  refine ⟨fun i hi => ⟨rfl, hrows i hi⟩, ?_, fun k => ?_⟩
  · rintro k i hi j hj ⟨c, hc⟩
    exact nomatch hc
  · rw [count_eq_zero fun i hi ⟨c, hc⟩ => nomatch hc]
    rfl

end BankAgrees

namespace LlhRun

variable {r : LlhRun}

variable (dev) in
/-- Every bank agrees with some table of counted filters. -/
def Inv (r : LlhRun) : Prop :=
  ∀ p a, dev.ppfidArray[p]? = some a →
    ∃ v, BankAgrees dev (r.sys.ppFilters p) (r.sys.hw a) (r.counts p) v

theorem inv_start {hw : ℕ → ℕ → LlhFilterDetails} (h : ∀ a i, (hw a i).enable = 0) :
    (start hw).Inv dev :=
  fun _ a _ => ⟨_, BankAgrees.empty fun i _ => h a i⟩

variable {counts : LlhKey → ℤ}

/-- An operation on one bank leaves the other banks alone. -/
theorem Inv.update (h : r.Inv dev) {p a : ℕ} (ha : dev.ppfidArray[p]? = some a)
    {bank : ℕ → LlhFilterInfo} {rows : ℕ → LlhFilterDetails}
    (hb : ∃ v, BankAgrees dev bank rows counts v) :
    Inv dev
      { sys :=
          { ppFilters := Function.update r.sys.ppFilters p bank
            hw := Function.update r.sys.hw a rows }
        counts := Function.update r.counts p counts } := by
  intro q b hq
  dsimp only
  by_cases hqp : q = p
  · have hba : b = a := some_injective _ (hq.symm.trans (hqp ▸ ha))
    rw [hqp, hba, update_self, update_self, update_self]
    exact hb
  · have hba : b ≠ a := fun hba => hqp (ppfidArray_inj (hba ▸ hq) ha)
    rw [update_of_ne hqp, update_of_ne hba, update_of_ne hqp]
    exact h q b hq

/-- The same for an operation that does not touch the registers. -/
theorem Inv.update_shadow (h : r.Inv dev) {p a : ℕ} (ha : dev.ppfidArray[p]? = some a)
    {bank : ℕ → LlhFilterInfo} (hb : ∃ v, BankAgrees dev bank (r.sys.hw a) counts v) :
    Inv dev
      { sys := { r.sys with ppFilters := Function.update r.sys.ppFilters p bank }
        counts := Function.update r.counts p counts } := by
  have hupd := h.update ha hb
  rwa [update_eq_self] at hupd

/-- What an operation does to the system and the counts. -/
def stepOp (dev : LlhDev) (r : LlhRun) (o : LlhOp) : LlhRun :=
  { sys := (o.run dev r.sys).2, counts := tally (o.run dev r.sys).1 r.counts o }

variable {p : ℕ}

theorem abs_of_lt (hp : p < dev.numPpfid) : ∃ a, dev.ppfidArray[p]? = some a :=
  ⟨_, List.getElem?_eq_getElem hp⟩

section

variable (h : r.Inv dev)

include h

theorem Inv.add {k : LlhKey} {dmae : DmaeWrite} (hok : LlhOp.Sound dev r.sys (.add p k dmae)) :
    (stepOp dev r (.add p k dmae)).Inv dev := by
  rcases Nat.lt_or_ge p dev.numPpfid with hp | hp
  swap
  · simp only [stepOp, LlhOp.run, addFilter_of_le hp, tally, reduceCtorEq, if_false]
    exact h
  obtain ⟨a, ha⟩ := abs_of_lt hp
  obtain ⟨v, hv⟩ := h p a ha
  have hnew : ∀ i, r.sys.addIdx p k = some i → (r.sys.ppFilters p i).bEnabled = false →
      dmae = .done → (∀ j < NIG_REG_LLH_FUNC_FILTER_EN_SIZE, ¬(r.sys.ppFilters p j).Holds k) →
      (stepOp dev r (.add p k dmae)).Inv dev := by
    rintro i hi hfree rfl hnot
    have hlt := addIdx_lt hi
    have href : ((r.sys.ppFilters p i).add k.kind k.bytes).refCnt = 1 := by
      rw [((hv.entry i hlt).of_disabled hfree).2.1]
      rfl
    simp only [stepOp, LlhOp.run, addFilter, shadowAdd_eq hp hi, absPpfid_eq ha, href, if_true]
    exact h.update ha (hv.addNew hlt hfree hnot)
  have hok := hok hp
  cases hs : searchFilter k.bytes (r.sys.ppFilters p) with
  | some i =>
    have hi : r.sys.addIdx p k = some i := by rw [addIdx, hs]; rfl
    have hlt := addIdx_lt hi
    rw [hs] at hok
    rcases hok with ⟨hholds, hwrap⟩ | ⟨hfree, hdone, hnot⟩
    · have hpos := ((hv.entry i hlt).of_holds hholds).2.1
      have href : ((r.sys.ppFilters p i).add k.kind k.bytes).refCnt ≠ 1 := by
        rw [LlhFilterInfo.add, if_neg (by omega)]
        dsimp only
        rw [Nat.mod_eq_of_lt hwrap]
        omega
      simp only [stepOp, LlhOp.run, addFilter, shadowAdd_eq hp hi, absPpfid_eq ha, href, tally,
        if_true, if_false]
      exact h.update_shadow ha (hv.raise hlt hholds hwrap)
    · exact hnew i hi hfree hdone hnot
  | none =>
    rw [hs] at hok
    cases hf : firstFilter (fun e => !e.bEnabled) (r.sys.ppFilters p) with
    | none =>
      have hi : r.sys.addIdx p k = none := by rw [addIdx, hs, hf]; rfl
      simp only [stepOp, LlhOp.run, addFilter_full ha hi, tally, reduceCtorEq, if_false]
      exact h
    | some i =>
      have hi : r.sys.addIdx p k = some i := by rw [addIdx, hs, hf]; rfl
      have hfree := (firstFilter_eq_some hf).2
      refine hnew i hi (by simpa using hfree) (hok.resolve_right (by simp [hf])) ?_
      -- an entry that holds the filter has its bytes, and the search would have found it
      intro j hj hholds
      refine List.find?_eq_none.1 hs j (List.mem_range.2 hj) ?_
      dsimp only
      rw [hholds.2.2, beq_self_eq_true]

theorem Inv.remove {k : LlhKey} {dmae : DmaeWrite}
    (hok : LlhOp.Sound dev r.sys (.remove p k dmae)) :
    (stepOp dev r (.remove p k dmae)).Inv dev := by
  rcases Nat.lt_or_ge p dev.numPpfid with hp | hp
  swap
  · simp only [stepOp, LlhOp.run, removeFilter_of_le hp, tally, reduceCtorEq, if_false]
    exact h
  obtain ⟨a, ha⟩ := abs_of_lt hp
  obtain ⟨v, hv⟩ := h p a ha
  have hnothing : (∀ i, searchFilter k.bytes (r.sys.ppFilters p) = some i →
      (r.sys.ppFilters p i).refCnt = 0) → (stepOp dev r (.remove p k dmae)).Inv dev := by
    intro hzero
    simp only [stepOp, LlhOp.run, removeFilter_none ha hzero, tally, reduceCtorEq, if_false]
    exact h
  have hok := hok hp
  cases hs : searchFilter k.bytes (r.sys.ppFilters p) with
  | none => exact hnothing fun i hi => nomatch hs.symm.trans hi
  | some i =>
    have hlt := (firstFilter_eq_some hs).1
    rw [hs] at hok
    rcases hok with hfree | ⟨hholds, hdone⟩
    · refine hnothing fun j hj => ?_
      cases hs.symm.trans hj
      rw [((hv.entry i hlt).of_disabled hfree).2.1]
      rfl
    · have hpos := ((hv.entry i hlt).of_holds hholds).2.1
      rcases Nat.lt_or_ge 1 (r.sys.ppFilters p i).refCnt with href | href
      · have href' : (r.sys.ppFilters p i).refCnt - 1 ≠ 0 := by omega
        simp only [stepOp, LlhOp.run, removeFilter, shadowRemove_eq hp hs hpos.ne', absPpfid_eq ha,
          href', tally, if_true, if_false]
        exact h.update_shadow ha (hv.lower hlt hholds href)
      · have href : (r.sys.ppFilters p i).refCnt = 1 := by omega
        obtain rfl := hdone href
        simp only [stepOp, LlhOp.run, removeFilter, shadowRemove_eq hp hs hpos.ne', absPpfid_eq ha,
          href, Nat.sub_self, if_true]
        exact h.update ha (hv.removeLast hlt hholds href)

theorem Inv.clear {dmae : ℕ → DmaeWrite} (hok : LlhOp.Sound dev r.sys (.clear p dmae)) :
    (stepOp dev r (.clear p dmae)).Inv dev := by
  rcases Nat.lt_or_ge p dev.numPpfid with hp | hp
  swap
  · simp only [stepOp, LlhOp.run, clearFilters, qedAbsPpfid, List.getElem?_eq_none hp, tally]
    intro q b hq
    have hqp : q ≠ p := fun hqp => absurd (numPpfid_of_abs hq) (by omega)
    dsimp only
    rw [update_of_ne hqp]
    exact h q b hq
  obtain ⟨a, ha⟩ := abs_of_lt hp
  obtain ⟨v, hv⟩ := h p a ha
  simp only [stepOp, LlhOp.run, clearFilters, qedLlhShadowRemoveAllFilters, absPpfid_eq ha,
    shadowSanity_ok hp (show 0 < NIG_REG_LLH_FUNC_FILTER_EN_SIZE by decide), tally]
  refine h.update ha ⟨_, BankAgrees.empty fun i hi => ?_⟩
  rcases clearLoop_enable NIG_REG_LLH_FUNC_FILTER_EN_SIZE 0 (r.sys.hw a) i with
    hdis | ⟨hsame, hmiss⟩
  · exact hdis
  · -- the loop ended before this filter, which then was free
    obtain ⟨m, -, hmi, hfail⟩ := hmiss (Nat.zero_le i) (by omega)
    have hfree := hok hp m (by omega) i hi hmi hfail
    rw [hsame]
    exact ((hv.entry i hi).of_disabled hfree).2.2

theorem Inv.step {c : LlhCall} (hok : r.Sound dev c) : (step dev r c).Inv dev := by
  cases ho : c.op dev with
  | none =>
    have hstep : LlhRun.step dev r c = r := by
      simp [LlhRun.step, ho, LlhCall.run_of_op_none ho]
    rw [hstep]
    exact h
  | some o =>
    have hstep : LlhRun.step dev r c = stepOp dev r o := by
      simp [LlhRun.step, ho, LlhCall.run_of_op ho, stepOp]
    rw [hstep]
    have hok := hok o ho
    cases o with
    | add p k dmae => exact h.add hok
    | remove p k dmae => exact h.remove hok
    | clear p dmae => exact h.clear hok

/-! ## The agreement -/

theorem Inv.refines : r.Refines dev := by
  intro p a ha
  obtain ⟨v, hv⟩ := h p a ha
  have hpos : ∀ i < NIG_REG_LLH_FUNC_FILTER_EN_SIZE, ∀ k c, v i = some (k, c) → 0 < c := by
    intro i hi k c hvi
    have he := hv.entry i hi
    rw [hvi] at he
    exact he.1
  have hcount : ∀ k, 0 < r.counts p k ↔
      ∃ i < NIG_REG_LLH_FUNC_FILTER_EN_SIZE, (r.sys.ppFilters p i).Holds k := by
    intro k
    rw [hv.count k, Int.natCast_pos, hv.distinct.count_pos_iff hpos]
    exact exists_congr fun i => and_congr_right fun hi => hv.at_iff hi
  refine ⟨fun k => ?_, fun k i hi j hj hik hjk => ?_, fun k => ?_, fun i hi hen => ?_, fun k => ?_⟩
  · rw [hv.count k]
    refine congrArg Nat.cast (sum_congr rfl fun i hi => ?_)
    exact (hv.entry i (mem_range.1 hi)).amount_eq.symm
  · exact hv.distinct k i hi j hj ((hv.at_iff hi).2 hik) ((hv.at_iff hj).2 hjk)
  · rw [hcount k]
    refine exists_congr fun i => and_congr_right fun hi => ⟨And.left, fun hk => ⟨hk, ?_⟩⟩
    exact ((hv.entry i hi).of_holds hk).2.2
  · obtain ⟨k, hk⟩ := (hv.entry i hi).enabled_iff.1 hen
    exact ⟨k, (hv.entry i hi).holds_iff.2 hk⟩
  · constructor
    · rintro ⟨i, hi, hrow⟩
      have hen : (r.sys.hw a i).enable ≠ 0 := by
        rw [hrow]
        exact one_ne_zero
      obtain ⟨k', hk'⟩ := (hv.entry i hi).enabled_iff.1 hen
      have hholds := (hv.entry i hi).holds_iff.2 hk'
      exact ⟨k', ((hv.entry i hi).of_holds hholds).2.2.symm.trans hrow,
        (hcount k').2 ⟨i, hi, hholds⟩⟩
    · rintro ⟨k', hk', hpos'⟩
      obtain ⟨i, hi, hholds⟩ := (hcount k').1 hpos'
      exact ⟨i, hi, ((hv.entry i hi).of_holds hholds).2.2.trans hk'⟩

end

/-- **The shadow is the multiset of the filters added.** In every sequence of calls that are each
sound, from an empty shadow and disabled filters on, the shadow of each bank holds every filter as
often as it was added with success less the successful removes since the last clear, in one entry at
most, and the registers are enabled for the filters with a positive count. -/
theorem shadow_refines_run {hw : ℕ → ℕ → LlhFilterDetails} (hhw : ∀ a i, (hw a i).enable = 0)
    {l : List LlhCall} (h : Meets (Sound dev) (step dev) (start hw) l) :
    (l.foldl (step dev) (start hw)).Refines dev :=
  (h.invariant (P := Inv dev) (fun _ _ hs hok => hs.step hok) (inv_start hhw)).refines

/-- A function with two banks of filters and both kinds of classification. -/
def twoBanks : LlhDev :=
  { ppfidBitmap := 0b101, macClss := true, protoClss := true, ovlanClss := false, isVf := false }

/-- The calls of a list on disabled filters. -/
def runTwoBanks (l : List LlhCall) : LlhRun :=
  l.foldl (step twoBanks) (start fun _ _ => ⟨0, 0, 0, 0, 0⟩)

/-- The address `02:00:00:00:00:<b>`. -/
def localMac (b : BitVec 8) : MacAddr := ![2, 0, 0, 0, 0, b]

/-- Two users share a MAC filter; the other bank gets a protocol filter and is cleared with a write
that fails behind it; and one user leaves. -/
def shareAndClear : List LlhCall :=
  [.addMac 0 true (localMac 1) .done, .addMac 0 true (localMac 1) .done,
    .addProtocol 1 true 0 0x8915 0 .done,
    .clearPpfid 1 true fun i => if i = 3 then .failed 0 else .done,
    .removeMac 0 true (localMac 1) (.failed 0), .addMac 0 true 0 .done]

theorem refines_shareAndClear : (runTwoBanks shareAndClear).Refines twoBanks :=
  shadow_refines_run (fun _ _ => rfl) (by decide +kernel)

/-- The write of the first add fails, and the filter is added again. -/
def failedAdd : List LlhCall :=
  [.addMac 0 true (localMac 1) (.failed 0), .addMac 0 true (localMac 1) .done]

/-- The Ethertype `0x8915` and the address `00:00:00:00:15:89` have the same bytes. -/
def sameBytes : List LlhCall :=
  [.addProtocol 0 true 0 0x8915 0 .done, .addMac 0 true ![0, 0, 0, 0, 0x15, 0x89] .done]

/-- The zero address is added twice, with an entry in front of its own freed in between. -/
def zeroMacTwice : List LlhCall :=
  [.addMac 0 true (localMac 1) .done, .addMac 0 true 0 .done, .removeMac 0 true (localMac 1) .done,
    .addMac 0 true 0 .done]

/-- The first write of a clear fails, with two filters in use. -/
def failedClear : List LlhCall :=
  [.addMac 0 true (localMac 1) .done, .addMac 0 true (localMac 2) .done,
    .clearPpfid 0 true fun _ => .failed 0]

/-- The driver loses the agreement in four ways. After a failed write the shadow keeps the reference
of the add that failed, and the second add enables no registers. The address is counted as the
Ethertype. The zero address gets a second entry. And a clear leaves a filter enabled. -/
theorem not_refines_failures :
    ¬(runTwoBanks failedAdd).Refines twoBanks ∧ ¬(runTwoBanks sameBytes).Refines twoBanks ∧
      ¬(runTwoBanks zeroMacTwice).Refines twoBanks ∧
      ¬(runTwoBanks failedClear).Refines twoBanks := by
  refine ⟨fun h => ?_, fun h => ?_, fun h => ?_, fun h => ?_⟩
  · have hcount := (h 0 0 (by decide)).count (.mac (localMac 1))
    revert hcount
    decide +kernel
  · have hcount := (h 0 0 (by decide)).count (.protocol .ethertype 0x8915 0)
    revert hcount
    decide +kernel
  · have hone := (h 0 0 (by decide)).atMostOne (.mac 0) 0 (by decide) 1 (by decide)
    revert hone
    decide +kernel
  · obtain ⟨k, hk⟩ := (h 0 0 (by decide)).onlyEnabled 1 (by decide) (by decide +kernel)
    have hfree : ((runTwoBanks failedClear).sys.ppFilters 0 1).bEnabled = false := by decide +kernel
    rw [hk.1] at hfree
    exact nomatch hfree

end LlhRun

end FastLinQ.Qed
