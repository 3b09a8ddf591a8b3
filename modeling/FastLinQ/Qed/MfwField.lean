import Mathlib

/-!
# Fields of the words shared with the management firmware

The words that the driver and the management firmware (MFW) exchange are split into fields, each
with a mask and an offset. What a field holds is not changed by setting a field with another mask.
-/

namespace FastLinQ.Qed

open BitVec

/-- The mask `field_MASK` and the shift `field_OFFSET` of a field. -/
structure MfwField where
  mask : BitVec 32
  offset : ℕ

def setMfwField (name : BitVec 32) (field : MfwField) (value : BitVec 32) : BitVec 32 :=
  (name &&& ~~~field.mask) ||| ((value <<< field.offset) &&& field.mask)

def getMfwField (name : BitVec 32) (field : MfwField) : BitVec 32 :=
  (name &&& field.mask) >>> field.offset

/-- A field holds what was written to it, as far as its mask goes. -/
theorem getMfwField_set_self (name : BitVec 32) (f : MfwField) (value : BitVec 32) :
    getMfwField (setMfwField name f value) f = ((value <<< f.offset) &&& f.mask) >>> f.offset := by
  have hmask : (name &&& ~~~f.mask ||| value <<< f.offset &&& f.mask) &&& f.mask =
      value <<< f.offset &&& f.mask := by
    refine eq_of_getLsbD_eq fun i hi => ?_
    simp only [getLsbD_and, getLsbD_or, getLsbD_not, hi]
    cases f.mask.getLsbD i <;> simp
  rw [getMfwField, setMfwField, hmask]

theorem getMfwField_set_of_disjoint (name : BitVec 32) {f g : MfwField} (value : BitVec 32)
    (h : f.mask &&& g.mask = 0) :
    getMfwField (setMfwField name g value) f = getMfwField name f := by
  have hmask : (name &&& ~~~g.mask ||| value <<< g.offset &&& g.mask) &&& f.mask =
      name &&& f.mask := by
    refine eq_of_getLsbD_eq fun i hi => ?_
    have hbit : (f.mask.getLsbD i && g.mask.getLsbD i) = false := by
      rw [← getLsbD_and, h]
      exact getLsbD_zero
    simp only [getLsbD_and, getLsbD_or, getLsbD_not, hi]
    revert hbit
    cases f.mask.getLsbD i <;> cases g.mask.getLsbD i <;> simp
  rw [getMfwField, setMfwField, hmask, getMfwField]

end FastLinQ.Qed
