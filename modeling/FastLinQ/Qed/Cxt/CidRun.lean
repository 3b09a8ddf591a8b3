import FastLinQ.Qed.Cxt.Cid

/-!
# Runs of the CID allocator

A run starts from the maps that `qed_cid_map_alloc` leaves and makes any calls. The log says what is
in use (`CidSys.InUse`), the bitmaps what the context manager takes for acquired; `CidInv` holds the
two together.
-/

namespace FastLinQ.Qed

open Run Function List Nat Option Ledger

variable {cfg : ℕ → ConnTypeCfg} {maxNumVfs : ℕ}

/-! ## The maps at the start -/

/-- The map that is allocated for a function and a protocol. -/
def freshMap (cfg : ℕ → ConnTypeCfg) (vfid type : ℕ) : CidAcquiredMap :=
  if cidCountOf cfg vfid type = 0 then .zero
  else ⟨cidStartOf cfg vfid type, cidCountOf cfg vfid type, some fun _ => false⟩

theorem vf_zero : 0 ≠ QED_CXT_PF_CID := by decide

theorem cidCountOf_vf {vfid : ℕ} (h : vfid ≠ QED_CXT_PF_CID) (type : ℕ) :
    cidCountOf cfg vfid type = (cfg type).cidsPerVf := if_neg h

theorem cidStartOf_vf {vfid vfid' : ℕ} (h : vfid ≠ QED_CXT_PF_CID) (h' : vfid' ≠ QED_CXT_PF_CID)
    (type : ℕ) : cidStartOf cfg vfid type = cidStartOf cfg vfid' type := by
  induction type with
  | zero => rfl
  | succ type ih => rw [cidStartOf, cidStartOf, ih, cidCountOf_vf h, cidCountOf_vf h']

theorem cidMapAllocSingle_eq {kz : Bool} {vfid type : ℕ} {p : CidAcquiredMap}
    (h : cidMapAllocSingle kz (cidStartOf cfg vfid type) (cidCountOf cfg vfid type) .zero =
      some p) :
    p = freshMap cfg vfid type := by
  unfold cidMapAllocSingle at h
  unfold freshMap
  split at h
  case isTrue hz =>
    rw [if_pos hz]
    exact (some.inj h).symm
  case isFalse hz =>
    rw [if_neg hz]
    split at h
    · exact (some.inj h).symm
    · nomatch h

/-- Before the turn for a protocol: the maps of the protocols before it are there. -/
def MappedTo (cfg : ℕ → ConnTypeCfg) (maxNumVfs type : ℕ) (m : CxtMngr) : Prop :=
  ∀ v, IsFunction maxNumVfs v → ∀ t, m.map v t = if t < type then freshMap cfg v t else .zero

variable {kz : ℕ → ℕ → Bool}

theorem MappedTo.allocSingle {type : ℕ} {m m' : CxtMngr} (h : MappedTo cfg maxNumVfs type m)
    (hm : qedCidMapAllocSingle kz maxNumVfs (cfg type) type (cidStartOf cfg QED_CXT_PF_CID type)
      (cidStartOf cfg 0 type) m = some m') :
    MappedTo cfg maxNumVfs (type + 1) m' := by
  unfold qedCidMapAllocSingle at hm
  split at hm
  · nomatch hm
  case h_2 p hp =>
    split at hm
    · nomatch hm
    case h_2 vfs hvfs =>
      obtain rfl := some.inj hm
      intro v hv t
      have hold := h v hv t
      unfold CxtMngr.map at hold ⊢
      by_cases hpf : v = QED_CXT_PF_CID
      · subst hpf
        rw [if_pos rfl] at hold ⊢
        by_cases ht : t = type
        · subst ht
          rw [if_neg (Nat.lt_irrefl t)] at hold
          rw [hold] at hp
          simp only [update_self, lt_succ_self, if_true]
          exact cidMapAllocSingle_eq hp
        · simp only [update_of_ne ht, hold]
          split <;> split <;> first | rfl | omega
      · rw [if_neg hpf] at hold ⊢
        by_cases ht : t = type
        · subst ht
          have hlt : v < maxNumVfs := hv.resolve_left hpf
          have hone := (fillTable_spec hvfs).1 v (Nat.zero_le v) (by omega)
          rw [if_neg (Nat.lt_irrefl t)] at hold
          rw [hold, cidStartOf_vf vf_zero hpf, ← cidCountOf_vf hpf] at hone
          simp only [update_self, lt_succ_self, if_true]
          exact cidMapAllocSingle_eq hone
        · simp only [update_of_ne ht, hold]
          split <;> split <;> first | rfl | omega

theorem cidMapAllocFrom_spec (hfit : CidsFit cfg) {n type : ℕ} {m m' : CxtMngr}
    (hn : type + n = MAX_CONN_TYPES) (h : MappedTo cfg maxNumVfs type m)
    (hm : cidMapAllocFrom kz maxNumVfs cfg n type (cidStartOf cfg QED_CXT_PF_CID type)
      (cidStartOf cfg 0 type) m = some m') :
    MappedTo cfg maxNumVfs MAX_CONN_TYPES m' := by
  induction n generalizing type m with
  | zero =>
    obtain rfl : type = MAX_CONN_TYPES := hn
    obtain rfl := some.inj hm
    exact h
  | succ n ih =>
    unfold cidMapAllocFrom at hm
    split at hm
    · nomatch hm
    case h_2 m₁ hone =>
      have hlt : ∀ v, cidStartOf cfg v type + cidCountOf cfg v type < 2 ^ 32 := fun v =>
        (cidStartOf_le cfg v (by omega)).trans_lt (hfit v)
      have hpf := mod_eq_of_lt (hlt QED_CXT_PF_CID)
      have hvf := mod_eq_of_lt (hlt 0)
      change (cidStartOf cfg QED_CXT_PF_CID type + (cfg type).cidCount) % 2 ^ 32 = _ at hpf
      change (cidStartOf cfg 0 type + (cfg type).cidsPerVf) % 2 ^ 32 = _ at hvf
      rw [hpf, hvf] at hm
      exact ih (by omega) (h.allocSingle hone) hm

/-- The maps at the start cover the ranges, and nothing is acquired. -/
theorem cidMapAlloc_spec {behind : ℕ → ℕ → CidAcquiredMap} {m : CxtMngr} (hfit : CidsFit cfg)
    (h : qedCidMapAlloc kz maxNumVfs cfg (.alloc maxNumVfs behind) = some m) :
    Mapped cfg maxNumVfs m ∧ ∀ v c, IsFunction maxNumVfs v → ¬ m.Marked v c := by
  have hzero : MappedTo cfg maxNumVfs 0 (.alloc maxNumVfs behind) := by
    intro v hv t
    unfold CxtMngr.map CxtMngr.alloc
    split
    · rfl
    case isFalse hpf => exact if_pos (hv.resolve_left hpf)
  have hall : ∀ v, IsFunction maxNumVfs v → ∀ t < MAX_CONN_TYPES, m.map v t = freshMap cfg v t :=
    fun v hv t ht => by rw [cidMapAllocFrom_spec hfit rfl hzero h v hv t, if_pos ht]
  refine ⟨⟨fun v hv t ht hne => ?_, fun v hv t ht => ?_, fun v hv t ht => ?_⟩, ?_⟩
  · rw [hall v hv t ht, freshMap, if_neg hne]
  · rw [hall v hv t ht, freshMap]
    split <;> simp_all [CidAcquiredMap.zero]
  · rw [hall v hv t ht, freshMap]
    split <;> simp_all [CidAcquiredMap.zero]
  · rintro v c hv ⟨t, ht, rel, -, -, hbit⟩
    rw [CxtMngr.bit, hall v hv t ht, freshMap] at hbit
    split at hbit
    · cases hbit
    case h_2 bits hbits =>
      split at hbits
      · cases hbits
      · cases hbits
        cases hbit

/-! ## Runs -/

/-- What was handed out for a protocol and a function, and what was given back for a function. -/
inductive CidEvent
  | acquired (type vfid cid : ℕ)
  | released (cid vfid : ℕ)
  deriving DecidableEq, Repr

def CidEvent.entry : CidEvent → Event (ℕ × ℕ)
  | .acquired _ vfid cid => .take (vfid, cid)
  | .released cid vfid => .give (vfid, cid)

structure CidSys where
  mngr : CxtMngr
  log : List CidEvent

/-- A CID of a function was handed out and has not been given back. -/
def CidSys.InUse (s : CidSys) (vfid cid : ℕ) : Prop :=
  held (s.log.map CidEvent.entry) (vfid, cid) = true

inductive CidOp
  | acquire (type vfid : ℕ)
  | release (cid vfid : ℕ)
  deriving DecidableEq, Repr

def CidSys.step (maxNumVfs : ℕ) (s : CidSys) : CidOp → CidSys
  | .acquire type vfid =>
    { mngr := (qedCxtAcquireCid maxNumVfs s.mngr type vfid).1
      log :=
        match (qedCxtAcquireCid maxNumVfs s.mngr type vfid).2 with
        | some cid => s.log ++ [.acquired type vfid cid]
        | none => s.log }
  | .release cid vfid =>
    { mngr := qedCxtReleaseCid maxNumVfs s.mngr cid vfid
      log := s.log ++ [.released cid vfid] }

/-- What a call does. A CID that is handed out is one of the protocol and the function, is not in
use and was never handed out for another protocol; a refusal means that all are in use. A release
changes the state of that CID only, and nothing if it is no CID of the function. -/
def CidSound (cfg : ℕ → ConnTypeCfg) (maxNumVfs : ℕ) (s : CidSys) : CidOp → Prop
  | .acquire t v =>
    match (qedCxtAcquireCid maxNumVfs s.mngr t v).2 with
    | some c => CidOf cfg maxNumVfs t v c ∧ ¬ s.InUse v c ∧ ∀ t', .acquired t' v c ∈ s.log → t' = t
    | none => (∀ c, CidOf cfg maxNumVfs t v c → s.InUse v c) ∧
        (s.step maxNumVfs (.acquire t v)).mngr = s.mngr
  | .release c v =>
    (∀ v' c', IsFunction maxNumVfs v' → ((s.step maxNumVfs (.release c v)).mngr.Marked v' c' ↔
        s.mngr.Marked v' c' ∧ ¬(v' = v ∧ c' = c))) ∧
    ((¬ ∃ t, CidOf cfg maxNumVfs t v c) → (s.step maxNumVfs (.release c v)).mngr = s.mngr)

/-- The calls that stay within `acquired_vf`: a release is not for the first id behind the VFs. -/
def CidOp.InBounds (maxNumVfs : ℕ) : CidOp → Prop
  | .acquire _ _ => True
  | .release _ vfid => vfid ≠ maxNumVfs ∨ vfid = QED_CXT_PF_CID

structure CidInv (cfg : ℕ → ConnTypeCfg) (maxNumVfs : ℕ) (s : CidSys) : Prop where
  mapped : Mapped cfg maxNumVfs s.mngr
  agrees : ∀ v c, IsFunction maxNumVfs v → (s.mngr.Marked v c ↔ s.InUse v c)
  typed : ∀ t v c, .acquired t v c ∈ s.log → CidOf cfg maxNumVfs t v c

section Step

variable {s : CidSys}

variable {m : CxtMngr}

theorem inUse_acquired {t v c v' c' : ℕ} :
    CidSys.InUse ⟨m, s.log ++ [.acquired t v c]⟩ v' c' ↔ (v' = v ∧ c' = c) ∨ s.InUse v' c' := by
  unfold CidSys.InUse
  rw [map_append]
  exact held_take.trans (by rw [Prod.mk.injEq])

theorem inUse_released {v c v' c' : ℕ} :
    CidSys.InUse ⟨m, s.log ++ [.released c v]⟩ v' c' ↔ s.InUse v' c' ∧ ¬(v' = v ∧ c' = c) := by
  unfold CidSys.InUse
  rw [map_append]
  exact held_give.trans (by rw [Ne, Prod.mk.injEq])

theorem CidInv.acquire (h : CidInv cfg maxNumVfs s) (hfit : CidsFit cfg) (t v : ℕ) :
    CidInv cfg maxNumVfs (s.step maxNumVfs (.acquire t v)) := by
  cases hc : (qedCxtAcquireCid maxNumVfs s.mngr t v).2 with
  | none =>
    obtain ⟨hm, -⟩ := acquire_none h.mapped hc
    simp only [CidSys.step, hm, hc]
    exact h
  | some c =>
    obtain ⟨hof, -, hm⟩ := acquire_some h.mapped hfit hc
    simp only [CidSys.step, hm, hc]
    refine ⟨h.mapped.putBit .., fun v' c' hv' => ?_, fun t' v' c' hmem => ?_⟩
    · rw [h.mapped.marked_putBit hof hv', inUse_acquired, h.agrees v' c' hv']
      split <;> simp [*]
    · rcases mem_append.mp hmem with hmem | hmem
      · exact h.typed t' v' c' hmem
      · cases mem_singleton.mp hmem
        exact hof

variable {c v : ℕ}

/-- A release for an id that is no function leaves the maps alone, if it stays within the array. -/
theorem release_of_not_function (hok : (CidOp.release c v).InBounds maxNumVfs)
    (hv : ¬ IsFunction maxNumVfs v) : qedCxtReleaseCid maxNumVfs m c v = m := by
  obtain ⟨hpf, hlt⟩ := not_or.mp hv
  have hne : v ≠ maxNumVfs := hok.resolve_right hpf
  unfold qedCxtReleaseCid
  rw [if_pos ⟨hpf, by omega⟩]

section

variable (h : CidInv cfg maxNumVfs s)

include h

theorem CidInv.released (hfit : CidsFit cfg) (hok : (CidOp.release c v).InBounds maxNumVfs) :
    Mapped cfg maxNumVfs (qedCxtReleaseCid maxNumVfs s.mngr c v) ∧
      ∀ v' c', IsFunction maxNumVfs v' → ((qedCxtReleaseCid maxNumVfs s.mngr c v).Marked v' c' ↔
          s.mngr.Marked v' c' ∧ ¬(v' = v ∧ c' = c)) := by
  by_cases hv : IsFunction maxNumVfs v
  · obtain ⟨hmap, hmark, -⟩ := release_spec h.mapped hfit hv
    exact ⟨hmap, hmark⟩
  · rw [release_of_not_function hok hv]
    refine ⟨h.mapped, fun v' c' hv' => ⟨fun hm => ⟨hm, ?_⟩, fun hm => hm.1⟩⟩
    rintro ⟨rfl, -⟩
    exact hv hv'

theorem CidInv.release (hfit : CidsFit cfg) (hok : (CidOp.release c v).InBounds maxNumVfs) :
    CidInv cfg maxNumVfs (s.step maxNumVfs (.release c v)) := by
  obtain ⟨hmap, hmark⟩ := h.released hfit hok
  refine ⟨hmap, fun v' c' hv' => ?_, fun t' v' c' hmem => ?_⟩
  · rw [CidSys.step, inUse_released, ← h.agrees v' c' hv']
    exact hmark v' c' hv'
  · rcases mem_append.mp hmem with hmem | hmem
    · exact h.typed t' v' c' hmem
    · nomatch mem_singleton.mp hmem

theorem CidInv.sound (hfit : CidsFit cfg) {a : CidOp} (hok : a.InBounds maxNumVfs) :
    CidSound cfg maxNumVfs s a := by
  cases a with
  | acquire t v =>
    unfold CidSound
    cases hc : (qedCxtAcquireCid maxNumVfs s.mngr t v).2 with
    | none =>
      obtain ⟨hm, hall⟩ := acquire_none h.mapped hc
      simp only [hc]
      exact ⟨fun c hof => (h.agrees v c hof.2.1).mp (hall c hof), hm⟩
    | some c =>
      obtain ⟨hof, hfree, -⟩ := acquire_some h.mapped hfit hc
      simp only [hc]
      exact ⟨hof, fun huse => hfree ((h.agrees v c hof.2.1).mpr huse),
        fun t' hmem => cidOf_unique (h.typed t' v c hmem) hof⟩
  | release c v =>
    refine ⟨(h.released hfit hok).2, fun hno => ?_⟩
    by_cases hv : IsFunction maxNumVfs v
    · refine (release_spec h.mapped hfit hv).2.2 fun hm => ?_
      obtain ⟨t, hof, -⟩ := (h.mapped.marked_iff hv).mp hm
      exact hno ⟨t, hof⟩
    · exact release_of_not_function hok hv

end

end Step

/-- **The CID allocator.** In a run whose releases stay within `acquired_vf`, the bitmaps agree with
what was handed out and given back, and each call does what it should. -/
theorem cids_run (kz : ℕ → ℕ → Bool) (behind : ℕ → ℕ → CidAcquiredMap) {m : CxtMngr}
    (hfit : CidsFit cfg) (hm : qedCidMapAlloc kz maxNumVfs cfg (.alloc maxNumVfs behind) = some m)
    {l : List CidOp} (hrun : Meets (fun _ => CidOp.InBounds maxNumVfs) (CidSys.step maxNumVfs)
      ⟨m, []⟩ l) {a : CidOp} (ha : a.InBounds maxNumVfs) :
    (∀ v c, IsFunction maxNumVfs v → ((l.foldl (CidSys.step maxNumVfs) ⟨m, []⟩).mngr.Marked v c ↔
        (l.foldl (CidSys.step maxNumVfs) ⟨m, []⟩).InUse v c)) ∧
      CidSound cfg maxNumVfs (l.foldl (CidSys.step maxNumVfs) ⟨m, []⟩) a := by
  obtain ⟨hmap, hfree⟩ := cidMapAlloc_spec hfit hm
  have hstart : CidInv cfg maxNumVfs ⟨m, []⟩ :=
    ⟨hmap, fun v c hv => iff_of_false (hfree v c hv) (by simp [CidSys.InUse]), nofun⟩
  have hinv := hrun.invariant (P := CidInv cfg maxNumVfs) (fun s a hs hok => ?_) hstart
  · exact ⟨hinv.agrees, hinv.sound hfit ha⟩
  · cases a with
    | acquire t v => exact hs.acquire hfit t v
    | release c v => exact hs.release hfit hok

/-- One core and two Ethernet CIDs for the PF, and one and two for each VF. -/
def smallCidCfg (type : ℕ) : ConnTypeCfg :=
  if type = PROTOCOLID_CORE then ⟨1, 1⟩ else if type = PROTOCOLID_ETH then ⟨2, 2⟩ else ⟨0, 0⟩

/-- The maps for `smallCidCfg` with 120 VFs, where the word behind `acquired_vf[0]` is a map with a
bit set. -/
def smallCxtMngr : CxtMngr :=
  (qedCidMapAlloc (fun _ _ => true) 120 smallCidCfg
    (.alloc 120 fun _ _ => ⟨0, 1, some fun _ => true⟩)).getD ⟨fun _ => .zero, fun _ _ => .zero⟩

theorem cidsFit_small : CidsFit smallCidCfg := by
  intro v
  by_cases hv : v = QED_CXT_PF_CID
  · subst hv
    decide
  · rw [cidStartOf_vf hv vf_zero]
    decide

/-- The core CID of VF 3 is taken, given back and can be taken again. -/
theorem cids_run_small :
    CidSound smallCidCfg 120
      (([.acquire PROTOCOLID_CORE 3, .release 0 3] : List CidOp).foldl (CidSys.step 120)
        ⟨smallCxtMngr, []⟩) (.acquire PROTOCOLID_CORE 3) := by
  have hrun : Meets (fun _ => CidOp.InBounds 120) (CidSys.step 120) ⟨smallCxtMngr, []⟩
      [.acquire PROTOCOLID_CORE 3, .release 0 3] :=
    ⟨trivial, .inl (by decide), trivial⟩
  have hacq : (CidOp.acquire PROTOCOLID_CORE 3).InBounds 120 := trivial
  exact (cids_run (fun _ _ => true) (fun _ _ => ⟨0, 1, some fun _ => true⟩) cidsFit_small rfl hrun
    hacq).2

/-- A release for VF 120 of 120 clears a bit behind the array. -/
theorem not_cidSound_behind : ¬ CidSound smallCidCfg 120 ⟨smallCxtMngr, []⟩ (.release 0 120) := by
  intro h
  have hno : ¬ ∃ t, CidOf smallCidCfg 120 t 120 0 := by
    rintro ⟨t, -, hv | hv, -⟩
    · exact absurd hv (by decide)
    · exact absurd hv (by decide)
  have hbit := congrArg (fun m => m.bit 120 0 0) (h.2 hno)
  exact absurd hbit (by decide +kernel)

end FastLinQ.Qed
