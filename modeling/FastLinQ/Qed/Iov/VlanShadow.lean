import FastLinQ.Foundations.Run

/-!
# The shadow of a VF's VLAN filters

The PF keeps the VLANs a VF asks for in a few slots, so that they can be set again once a forced
VLAN is taken back. A filter of the firmware is there or not, while the slots count how often a VLAN
was added. So a VLAN that was added twice and removed once stays in the shadow.
-/

namespace FastLinQ.Qed

open List Finset Option

/-- `qed_filter_opcode` with the VLAN of the filter. -/
inductive VlanFilter
  | add (vlan : ℕ)
  | remove (vlan : ℕ)
  | move (vlan : ℕ)
  | replace (vlan : ℕ)
  | flush
  deriving DecidableEq, Repr

structure VlanShadow where
  used : Bool
  vid : ℕ
  deriving DecidableEq, Repr

/-- The loop that frees the first used slot of a VLAN, if there is one. -/
def removeVid (vlan : ℕ) : List VlanShadow → Option (List VlanShadow)
  | [] => none
  | x :: vlans =>
    if x.used = true ∧ x.vid = vlan then some (⟨false, x.vid⟩ :: vlans)
    else (removeVid vlan vlans).map (x :: ·)

/-- The loop that puts a VLAN into the first slot that is not used, if there is one. -/
def addVid (vlan : ℕ) : List VlanShadow → Option (List VlanShadow)
  | [] => none
  | x :: vlans => if x.used then (addVid vlan vlans).map (x :: ·) else some (⟨true, vlan⟩ :: vlans)

/-- `qed_iov_vf_update_vlan_shadow`; `none` is `-EINVAL`, and the slots stay. -/
def qedIovVfUpdateVlanShadow (forced : Bool) (vlans : List VlanShadow) :
    VlanFilter → Option (List VlanShadow)
  | .add vlan => if forced then some vlans else addVid vlan vlans
  | .remove vlan => removeVid vlan vlans
  | .move _ => some vlans
  | .replace vlan =>
    let vlans := vlans.map fun x => ⟨false, x.vid⟩
    if forced then some vlans else addVid vlan vlans
  | .flush => some (vlans.map fun x => ⟨false, x.vid⟩)

/-- The VLAN filters of a vport after a ramrod of `qed_sp_eth_filter_ucast`. A move removes the
filter from the vport and adds it to the same one. -/
def ucastRamrod (fw : Finset ℕ) : VlanFilter → Finset ℕ
  | .add vlan => insert vlan fw
  | .remove vlan => fw.erase vlan
  | .move vlan => insert vlan (fw.erase vlan)
  | .replace vlan => {vlan}
  | .flush => ∅

/-- A VF: its slots, whether its bulletin has a forced VLAN, and the filters of the firmware. -/
structure VlanVf where
  vportInstance : Bool
  vlans : List VlanShadow
  forced : Bool
  fw : Finset ℕ

namespace VlanVf

/-- `qed_iov_vf_mbx_ucast_filter` for a VLAN filter. -/
def qedIovVfMbxUcastFilter (vf : VlanVf) (m : VlanFilter) : VlanVf :=
  if !vf.vportInstance then vf
  else
    match qedIovVfUpdateVlanShadow vf.forced vf.vlans m with
    -- the VF is told that its request succeeded
    | none => vf
    | some vlans =>
      if vf.forced then { vf with vlans } else { vf with vlans, fw := ucastRamrod vf.fw m }

def qedIovReconfigureUnicastVlan (vf : VlanVf) : VlanVf :=
  { vf with
    fw := vf.vlans.foldl (fun fw x => if x.used then ucastRamrod fw (.add x.vid) else fw) vf.fw }

/-- `qed_iov_bulletin_set_forced_vlan` with `qed_iov_configure_vport_forced`. -/
def qedIovBulletinSetForcedVlan (vf : VlanVf) (pvid : ℕ) : VlanVf :=
  let vf := { vf with forced := pvid ≠ 0 }
  if !vf.vportInstance then vf
  else if pvid ≠ 0 then { vf with fw := ucastRamrod vf.fw (.replace pvid) }
  else qedIovReconfigureUnicastVlan { vf with fw := ucastRamrod vf.fw .flush }

def start : VlanVf := ⟨true, List.replicate 3 ⟨false, 0⟩, false, ∅⟩

end VlanVf

def usedVids (vlans : List VlanShadow) : List ℕ := (vlans.filter (·.used)).map (·.vid)

/-- The shadow is the set of filters, and a forced VLAN that is set and cleared restores it. -/
def VlanVf.Mirrors (vf : VlanVf) : Prop :=
  (usedVids vf.vlans).toFinset = vf.fw ∧
    ∀ pvid, ((vf.qedIovBulletinSetForcedVlan pvid).qedIovBulletinSetForcedVlan 0).fw = vf.fw

/-- A VLAN that is removed is in at most one used slot, and one that is moved is in a slot. -/
def VlanVf.FilterOk (vf : VlanVf) : VlanFilter → Prop
  | .remove vlan => (usedVids vf.vlans).count vlan ≤ 1
  | .move vlan => vlan ∈ usedVids vf.vlans
  | _ => True

section Slots

variable {vlan : ℕ} {vlans vlans' : List VlanShadow}

@[simp] theorem usedVids_cons (x : VlanShadow) :
    usedVids (x :: vlans) = if x.used then x.vid :: usedVids vlans else usedVids vlans := by
  unfold usedVids
  cases hx : x.used <;> simp [hx]

theorem usedVids_cleared : usedVids (vlans.map fun x => ⟨false, x.vid⟩) = [] := by
  induction vlans with
  | nil => rfl
  | cons x vlans ih => simpa using ih

/-- Removing fails only if the VLAN is in no used slot. -/
theorem removeVid_none (h : removeVid vlan vlans = none) : vlan ∉ usedVids vlans := by
  induction vlans with
  | nil => exact not_mem_nil
  | cons x vlans ih =>
    unfold removeVid at h
    by_cases hx : x.used = true ∧ x.vid = vlan
    · simp [hx] at h
    · rw [if_neg hx, map_eq_none_iff] at h
      cases hused : x.used with
      | false => simpa [hused] using ih h
      | true =>
        have hne : vlan ≠ x.vid := fun heq => hx ⟨hused, heq.symm⟩
        simpa [hused, hne] using ih h

theorem removeVid_some (h : removeVid vlan vlans = some vlans') :
    usedVids vlans' = (usedVids vlans).erase vlan := by
  induction vlans generalizing vlans' with
  | nil => cases h
  | cons x vlans ih =>
    unfold removeVid at h
    split at h
    · rename_i hx
      obtain rfl := some.inj h
      simp [hx]
    · rename_i hx
      rw [map_eq_some_iff] at h
      obtain ⟨rest, hrest, rfl⟩ := h
      cases hused : x.used with
      | false => simpa [hused] using ih hrest
      | true =>
        have hne : x.vid ≠ vlan := fun heq => hx ⟨hused, heq⟩
        simpa [hused, erase_cons_tail, hne] using ih hrest

theorem addVid_perm (h : addVid vlan vlans = some vlans') :
    (usedVids vlans').Perm (vlan :: usedVids vlans) := by
  induction vlans generalizing vlans' with
  | nil => cases h
  | cons x vlans ih =>
    unfold addVid at h
    cases hused : x.used with
    | false =>
      obtain rfl : _ = vlans' := by simpa [hused] using h
      simp [hused]
    | true =>
      obtain ⟨rest, hrest, rfl⟩ : ∃ rest, addVid vlan vlans = some rest ∧ x :: rest = vlans' := by
        simpa [hused] using h
      simpa [hused] using ((ih hrest).cons x.vid).trans (.swap _ _ _)

theorem toFinset_addVid (h : addVid vlan vlans = some vlans') :
    (usedVids vlans').toFinset = insert vlan (usedVids vlans).toFinset := by
  rw [toFinset_eq_of_perm _ _ (addVid_perm h), toFinset_cons]

theorem toFinset_erase_iff {l : List ℕ} :
    (l.erase vlan).toFinset = l.toFinset.erase vlan ↔ l.count vlan ≤ 1 := by
  constructor
  · intro h
    have hnot : vlan ∉ l.erase vlan := by
      rw [← List.mem_toFinset, h]
      exact notMem_erase vlan _
    have hcount := count_eq_zero_of_not_mem hnot
    rw [count_erase_self] at hcount
    omega
  · intro h
    ext x
    by_cases hx : x = vlan
    · subst hx
      have hcount : (l.erase x).count x = 0 := by
        rw [count_erase_self]
        omega
      simpa using count_eq_zero.1 hcount
    · simp [mem_erase_of_ne hx, hx]

end Slots

namespace VlanVf

/-- Setting the filters again adds the VLANs of the used slots. -/
theorem reconfigure_fw (vf : VlanVf) :
    vf.qedIovReconfigureUnicastVlan.fw = (usedVids vf.vlans).toFinset ∪ vf.fw := by
  obtain ⟨-, vlans, -, fw⟩ := vf
  change vlans.foldl _ fw = (usedVids vlans).toFinset ∪ fw
  induction vlans generalizing fw with
  | nil => exact (empty_union fw).symm
  | cons x vlans ih =>
    rw [foldl_cons, ih]
    cases hx : x.used <;> simp [hx, ucastRamrod]

theorem setForced_keeps (vf : VlanVf) (pvid : ℕ) :
    (vf.qedIovBulletinSetForcedVlan pvid).vportInstance = vf.vportInstance ∧
      (vf.qedIovBulletinSetForcedVlan pvid).vlans = vf.vlans := by
  simp only [qedIovBulletinSetForcedVlan]
  split_ifs <;> exact ⟨rfl, rfl⟩

/-- **Once a forced VLAN is taken back**, the filters are the VLANs of the used slots. -/
theorem cleared_fw {vf : VlanVf} (h : vf.vportInstance = true) :
    (vf.qedIovBulletinSetForcedVlan 0).fw = (usedVids vf.vlans).toFinset := by
  have hclear : vf.qedIovBulletinSetForcedVlan 0 =
      qedIovReconfigureUnicastVlan { vf with forced := false, fw := ∅ } := by
    simp [qedIovBulletinSetForcedVlan, h, ucastRamrod]
  rw [hclear, reconfigure_fw, union_empty]

theorem mirrors_iff {vf : VlanVf} (h : vf.vportInstance = true) :
    vf.Mirrors ↔ (usedVids vf.vlans).toFinset = vf.fw := by
  have hrestore (pvid : ℕ) :
      ((vf.qedIovBulletinSetForcedVlan pvid).qedIovBulletinSetForcedVlan 0).fw =
        (usedVids vf.vlans).toFinset := by
    obtain ⟨hvport, hvlans⟩ := vf.setForced_keeps pvid
    rw [cleared_fw (hvport.trans h), hvlans]
  exact ⟨And.left, fun heq => ⟨heq, fun pvid => (hrestore pvid).trans heq⟩⟩

/-- What the messages keep besides the slots and the filters. -/
structure Plain (vf : VlanVf) : Prop where
  vport : vf.vportInstance = true
  forced : vf.forced = false

variable {vf : VlanVf} (h : vf.Plain) (m : VlanFilter)

include h

theorem Plain.mbx_none (hu : qedIovVfUpdateVlanShadow false vf.vlans m = none) :
    vf.qedIovVfMbxUcastFilter m = vf := by
  simp [qedIovVfMbxUcastFilter, h.vport, h.forced, hu]

theorem Plain.mbx_some {vlans : List VlanShadow}
    (hu : qedIovVfUpdateVlanShadow false vf.vlans m = some vlans) :
    vf.qedIovVfMbxUcastFilter m = { vf with vlans, fw := ucastRamrod vf.fw m } := by
  simp [qedIovVfMbxUcastFilter, h.vport, h.forced, hu]

/-- A message keeps the mirror just if it meets the condition. -/
theorem Plain.mbx_mirrors (hm : (usedVids vf.vlans).toFinset = vf.fw) :
    (usedVids (vf.qedIovVfMbxUcastFilter m).vlans).toFinset = (vf.qedIovVfMbxUcastFilter m).fw ↔
      vf.FilterOk m := by
  cases hu : qedIovVfUpdateVlanShadow false vf.vlans m with
  | none =>
    rw [h.mbx_none m hu]
    refine iff_of_true hm ?_
    cases m with
    | remove vlan =>
      exact (count_eq_zero.2 (removeVid_none hu)).trans_le (Nat.zero_le 1)
    | move vlan => cases hu
    | _ => trivial
  | some vlans =>
    rw [h.mbx_some m hu]
    rw [← hm]
    cases m with
    | add vlan => exact iff_of_true (toFinset_addVid hu) trivial
    | remove vlan =>
      rw [removeVid_some hu]
      exact toFinset_erase_iff
    | move vlan =>
      obtain rfl : vf.vlans = vlans := by simpa [qedIovVfUpdateVlanShadow] using hu
      constructor
      · intro heq
        rw [FilterOk, ← List.mem_toFinset, heq]
        exact mem_insert_self _ _
      · intro hmem
        exact (insert_erase (mem_toFinset.2 hmem)).symm
    | replace vlan =>
      refine iff_of_true ?_ trivial
      rw [toFinset_addVid hu, usedVids_cleared]
      rfl
    | flush =>
      obtain rfl : _ = vlans := some.inj hu
      rw [usedVids_cleared]
      exact iff_of_true rfl trivial

theorem Plain.mbx : (vf.qedIovVfMbxUcastFilter m).Plain := by
  cases hu : qedIovVfUpdateVlanShadow false vf.vlans m with
  | none =>
    rw [h.mbx_none m hu]
    exact h
  | some vlans =>
    rw [h.mbx_some m hu]
    exact ⟨h.vport, h.forced⟩

end VlanVf

/-- **The shadow mirrors the filters of the firmware** after every message, just if no message
removes a VLAN that is in several slots or moves one that is in none. -/
theorem vlan_shadow_mirrors_iff (l : List VlanFilter) :
    (∀ k, ((l.take k).foldl VlanVf.qedIovVfMbxUcastFilter VlanVf.start).Mirrors) ↔
      Run.Meets VlanVf.FilterOk VlanVf.qedIovVfMbxUcastFilter VlanVf.start l := by
  have hstep (vf : VlanVf) (m : VlanFilter) (h : vf.Plain ∧ vf.Mirrors) :
      ((vf.qedIovVfMbxUcastFilter m).Plain ∧ (vf.qedIovVfMbxUcastFilter m).Mirrors) ↔
        vf.FilterOk m := by
    obtain ⟨hplain, hmirror⟩ := h
    have hnext := hplain.mbx m
    rw [VlanVf.mirrors_iff hnext.vport, and_iff_right hnext]
    exact hplain.mbx_mirrors m ((VlanVf.mirrors_iff hplain.vport).1 hmirror)
  have hstart : VlanVf.start.Plain := ⟨rfl, rfl⟩
  have hplain (l : List VlanFilter) :
      (l.foldl VlanVf.qedIovVfMbxUcastFilter VlanVf.start).Plain :=
    List.foldlRecOn l _ hstart fun _ h m _ => h.mbx m
  rw [← Run.meets_iff_always hstep ⟨hstart, (VlanVf.mirrors_iff rfl).2 rfl⟩]
  exact forall_congr' fun k => (and_iff_right (hplain _)).symm

/-- A VLAN that is added twice and removed once is in the shadow, but not in the firmware. -/
theorem not_vlan_shadow_mirrors :
    ¬ ([.add 5, .add 5, .remove 5].foldl VlanVf.qedIovVfMbxUcastFilter VlanVf.start).Mirrors := by
  intro h
  exact absurd h.1 (by decide)

end FastLinQ.Qed
