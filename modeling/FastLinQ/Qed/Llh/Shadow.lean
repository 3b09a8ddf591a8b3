import FastLinQ.Qed.Llh.Filters

/-!
# What the functions of the LLH shadow do

One lemma for each way an add, a remove and a clear can end, by the entry that the search of the
shadow finds. The bytes of a filter and its kind determine the filter.
-/

namespace FastLinQ.Qed

open Function List Option

variable {dev : LlhDev}

/-! ## Filters and their bytes -/

theorem bytesOfU16_injective : Function.Injective bytesOfU16 := by
  intro x y h
  simp only [bytesOfU16, cons.injEq, and_true] at h
  obtain ⟨hlo, hhi⟩ := h
  have hlo := congrArg BitVec.toNat hlo
  have hhi := congrArg BitVec.toNat hhi
  simp only [BitVec.extractLsb'_toNat, Nat.shiftRight_eq_div_pow] at hlo hhi
  apply BitVec.eq_of_toNat_eq
  omega

theorem LlhProtFilterType.code_injective {t t' : LlhProtFilterType}
    (h : BitVec.ofNat 8 t.code = BitVec.ofNat 8 t'.code) : t = t' := by
  revert h
  cases t <;> cases t' <;> decide

/-- Kind and bytes determine a filter; the bytes alone do not. -/
theorem LlhKey.eq_of_bytes {k k' : LlhKey} (hkind : k.kind = k'.kind) (h : k.bytes = k'.bytes) :
    k = k' := by
  cases k with
  | mac a =>
    cases k' with
    | mac b => rw [ofFn_injective (append_cancel_right h)]
    | protocol => exact nomatch hkind
  | protocol t x y =>
    cases k' with
    | mac => exact nomatch hkind
    | protocol t' x' y' =>
      have hsplit := append_inj h (by rfl)
      have hfront := append_inj hsplit.1 (by rfl)
      have ht := LlhProtFilterType.code_injective (cons.inj hfront.1).1
      rw [ht, bytesOfU16_injective hfront.2, bytesOfU16_injective hsplit.2]

def LlhFilterInfo.Holds (e : LlhFilterInfo) (k : LlhKey) : Prop :=
  e.bEnabled = true ∧ e.type = k.kind ∧ e.filter = k.bytes
  deriving Decidable

/-! ## The shadow functions -/

theorem firstFilter_eq_some {stop : LlhFilterInfo → Bool} {bank : ℕ → LlhFilterInfo} {i : ℕ}
    (h : firstFilter stop bank = some i) :
    i < NIG_REG_LLH_FUNC_FILTER_EN_SIZE ∧ stop (bank i) = true := by
  have hmem := mem_of_find?_eq_some h
  exact ⟨mem_range.1 hmem, by simpa using find?_some h⟩

theorem shadowSanity_ok {p i : ℕ} (hp : p < dev.numPpfid)
    (hi : i < NIG_REG_LLH_FUNC_FILTER_EN_SIZE) : qedLlhShadowSanity dev p i = .ok () := by
  rw [qedLlhShadowSanity, if_neg (by omega), if_neg (by omega)]

theorem shadowSanity_of_le {p : ℕ} (hp : dev.numPpfid ≤ p) (i : ℕ) :
    qedLlhShadowSanity dev p i = .error .einval := if_pos hp

theorem numPpfid_of_abs {p a : ℕ} (ha : dev.ppfidArray[p]? = some a) : p < dev.numPpfid :=
  (List.getElem?_eq_some_iff.1 ha).1

theorem absPpfid_eq {p a : ℕ} (ha : dev.ppfidArray[p]? = some a) : qedAbsPpfid dev p = .ok a := by
  rw [qedAbsPpfid, ha]

/-- Two ppfids have two banks of registers. -/
theorem ppfidArray_inj {p q a : ℕ} (hp : dev.ppfidArray[p]? = some a)
    (hq : dev.ppfidArray[q]? = some a) : p = q := by
  have hnodup : dev.ppfidArray.Nodup := (nodup_range).filter _
  exact (getElem?_inj (numPpfid_of_abs hp) hnodup).1 (hp.trans hq.symm)

namespace LlhSys

variable {s : LlhSys} {p a : ℕ} {k : LlhKey} {dmae : DmaeWrite}

def addIdx (s : LlhSys) (p : ℕ) (k : LlhKey) : Option ℕ :=
  (searchFilter k.bytes (s.ppFilters p)).or (firstFilter (fun e => !e.bEnabled) (s.ppFilters p))

theorem addFilter_of_le (hp : dev.numPpfid ≤ p) :
    s.addFilter dev p k dmae = (.error .einval, s) := by
  unfold addFilter qedLlhShadowAddFilter qedLlhShadowSearchFilter
  rw [shadowSanity_of_le hp]
  rfl

variable {i : ℕ}

theorem addIdx_lt (hi : s.addIdx p k = some i) : i < NIG_REG_LLH_FUNC_FILTER_EN_SIZE := by
  rw [addIdx, or_eq_some_iff] at hi
  rcases hi with hi | ⟨-, hi⟩ <;> exact (firstFilter_eq_some hi).1

theorem addFilter_full (ha : dev.ppfidArray[p]? = some a) (hi : s.addIdx p k = none) :
    s.addFilter dev p k dmae = (.error .einval, s) := by
  rw [addIdx, or_eq_none_iff] at hi
  unfold addFilter qedLlhShadowAddFilter qedLlhShadowSearchFilter qedLlhShadowGetFreeIdx
  rw [shadowSanity_ok (numPpfid_of_abs ha) (by decide), hi.1, hi.2]
  rfl

theorem shadowAdd_eq (hp : p < dev.numPpfid) (hi : s.addIdx p k = some i) :
    qedLlhShadowAddFilter dev s.ppFilters p k.kind k.bytes =
      .ok (setEntry s.ppFilters p i ((s.ppFilters p i).add k.kind k.bytes), i,
        ((s.ppFilters p i).add k.kind k.bytes).refCnt) := by
  have hlt := addIdx_lt hi
  rw [addIdx, or_eq_some_iff] at hi
  unfold qedLlhShadowAddFilter qedLlhShadowSearchFilter qedLlhShadowGetFreeIdx
  rw [shadowSanity_ok hp (by decide)]
  rcases hi with hi | ⟨hnone, hi⟩
  · rw [hi]
    change (do qedLlhShadowSanity dev p i; _) = _
    rw [shadowSanity_ok hp hlt]
    rfl
  · rw [hnone, hi]
    change (do qedLlhShadowSanity dev p i; _) = _
    rw [shadowSanity_ok hp hlt]
    rfl

theorem removeFilter_of_le (hp : dev.numPpfid ≤ p) :
    s.removeFilter dev p k dmae = (.error .einval, s) := by
  unfold removeFilter qedLlhShadowRemoveFilter qedLlhShadowSearchFilter
  rw [shadowSanity_of_le hp]
  rfl

theorem removeFilter_none (ha : dev.ppfidArray[p]? = some a)
    (hi : ∀ i, searchFilter k.bytes (s.ppFilters p) = some i → (s.ppFilters p i).refCnt = 0) :
    s.removeFilter dev p k dmae = (.error .einval, s) := by
  have hp := numPpfid_of_abs ha
  unfold removeFilter qedLlhShadowRemoveFilter qedLlhShadowSearchFilter
  rw [shadowSanity_ok hp (by decide)]
  cases hs : searchFilter k.bytes (s.ppFilters p) with
  | none => rfl
  | some i =>
    have hlt := (firstFilter_eq_some hs).1
    simp [shadowSanity_ok hp hlt, hi i hs, bind, Except.bind, pure, Except.pure, throw,
      throwThe, MonadExceptOf.throw]

theorem shadowRemove_eq (hp : p < dev.numPpfid) (hs : searchFilter k.bytes (s.ppFilters p) = some i)
    (href : (s.ppFilters p i).refCnt ≠ 0) :
    qedLlhShadowRemoveFilter dev s.ppFilters p k.bytes =
      .ok (setEntry s.ppFilters p i (s.ppFilters p i).remove, i, (s.ppFilters p i).refCnt - 1) := by
  have hlt := (firstFilter_eq_some hs).1
  unfold qedLlhShadowRemoveFilter qedLlhShadowSearchFilter
  rw [shadowSanity_ok hp (by decide), hs]
  simp [shadowSanity_ok hp hlt, href, bind, Except.bind, pure, Except.pure]

theorem clearLoop_enable {dmae : ℕ → DmaeWrite} (n : ℕ) :
    ∀ (i : ℕ) (rows : ℕ → LlhFilterDetails) (j : ℕ), ((clearLoop dmae i n rows).2 j).enable = 0 ∨
        (clearLoop dmae i n rows).2 j = rows j ∧
          (i ≤ j → j < i + n → ∃ m, i ≤ m ∧ m < j ∧ dmae m ≠ .done) := by
  induction n with
  | zero => exact fun i rows j => .inr ⟨rfl, by omega⟩
  | succ n ih =>
    intro i rows j
    have hdis : (qedLlhRemoveFilter (rows i) (dmae i)).2.enable = 0 := by
      cases dmae i <;> rfl
    cases hd : dmae i with
    | failed left =>
      have heq : (clearLoop dmae i (n + 1) rows).2 =
          update rows i (qedLlhRemoveFilter (rows i) (dmae i)).2 := by
        rw [clearLoop, hd]
        rfl
      rw [heq]
      by_cases hj : j = i
      · rw [hj, update_self]
        exact .inl hdis
      · rw [update_of_ne hj]
        exact .inr ⟨rfl, fun _ _ => ⟨i, le_rfl, by omega, by simp [hd]⟩⟩
    | done =>
      have heq : clearLoop dmae i (n + 1) rows = clearLoop dmae (i + 1) n
          (update rows i (qedLlhRemoveFilter (rows i) (dmae i)).2) := by
        rw [clearLoop, hd]
        rfl
      rw [heq]
      rcases ih (i + 1) (update rows i (qedLlhRemoveFilter (rows i) (dmae i)).2) j with
        h | ⟨hsame, hmiss⟩
      · exact .inl h
      · by_cases hj : j = i
        · rw [hsame, hj, update_self]
          exact .inl hdis
        · rw [update_of_ne hj] at hsame
          refine .inr ⟨hsame, fun hle hlt => ?_⟩
          obtain ⟨m, hm, hmj, hfail⟩ := hmiss (by omega) (by omega)
          exact ⟨m, by omega, hmj, hfail⟩

end LlhSys

end FastLinQ.Qed
