import Mathlib.Tactic

/-!
# Bit-fields of a word

A word is a natural number. `field w lo len` reads the `len` bits from bit `lo`
on, `setField w lo len v` is the word after an assignment to that field: the
value is truncated to the width of the field, the other bits stay.
-/

namespace Comus.BitField

def field (w lo len : Nat) : Nat := w / 2^lo % 2^len

def setField (w lo len v : Nat) : Nat :=
  w % 2^lo + 2^lo * (v % 2^len) + 2^(lo + len) * (w / 2^(lo + len))

variable {w lo len lo' len' v : Nat}

theorem field_lt (w lo len : Nat) : field w lo len < 2^len := Nat.mod_lt _ (by positivity)

theorem field_zero (lo len : Nat) : field 0 lo len = 0 := by
  simp [field]

theorem field_eq_mod_div (w lo len : Nat) : field w lo len = w % 2^(lo + len) / 2^lo := by
  rw [field, pow_add, Nat.mod_mul_right_div_self]

theorem setField_low_lt (w lo len v : Nat) : w % 2^lo + 2^lo * (v % 2^len) < 2^(lo + len) := by
  have hlow : w % 2^lo < 2^lo := Nat.mod_lt _ (by positivity)
  have hval : v % 2^len + 1 ≤ 2^len := Nat.mod_lt v (by positivity)
  calc w % 2^lo + 2^lo * (v % 2^len) < 2^lo + 2^lo * (v % 2^len) := by omega
    _ = 2^lo * (v % 2^len + 1) := by ring
    _ ≤ 2^lo * 2^len := Nat.mul_le_mul_left _ hval
    _ = 2^(lo + len) := (pow_add 2 lo len).symm

theorem field_setField (w lo len v : Nat) : field (setField w lo len v) lo len = v % 2^len := by
  have hlow : w % 2^lo < 2^lo := Nat.mod_lt _ (by positivity)
  rw [field_eq_mod_div, setField, Nat.add_mul_mod_self_left,
    Nat.mod_eq_of_lt (setField_low_lt w lo len v), Nat.add_mul_div_left _ _ (by positivity),
    Nat.div_eq_of_lt hlow, zero_add]

theorem field_field (h : lo' + len' ≤ len) : field (field w lo len) lo' len' = field w (lo + lo') len' := by
  obtain ⟨d, rfl⟩ := Nat.exists_eq_add_of_le h
  rw [field_eq_mod_div, field, pow_add 2 (lo' + len') d, Nat.mod_mul_right_mod, field, pow_add 2 lo lo',
    ← Nat.div_div_eq_div_mul, pow_add 2 lo' len', Nat.mod_mul_right_div_self]

theorem field_setField_within (h : lo' + len' ≤ len) :
    field (setField w lo len v) (lo + lo') len' = field v lo' len' := by
  rw [← field_field h, field_setField]
  have hv : v % 2^len = field v 0 len := by simp [field]
  rw [hv, field_field h, zero_add]

theorem setField_mod (w lo len v : Nat) : setField w lo len v % 2^lo = w % 2^lo := by
  rw [setField, pow_add, mul_assoc, add_assoc, ← mul_add, Nat.add_mul_mod_self_left,
    Nat.mod_mod]

theorem setField_div (w lo len v : Nat) :
    setField w lo len v / 2^(lo + len) = w / 2^(lo + len) := by
  rw [setField, Nat.add_mul_div_left _ _ (by positivity),
    Nat.div_eq_of_lt (setField_low_lt w lo len v), zero_add]

theorem field_setField_below (h : lo' + len' ≤ lo) :
    field (setField w lo len v) lo' len' = field w lo' len' := by
  obtain ⟨d, rfl⟩ := Nat.exists_eq_add_of_le h
  have hmod : ∀ x, x % 2^(lo' + len') = x % 2^(lo' + len' + d) % 2^(lo' + len') := by
    intro x
    rw [pow_add 2 (lo' + len') d, Nat.mod_mul_right_mod]
  rw [field_eq_mod_div, field_eq_mod_div, hmod (setField _ _ _ _), setField_mod, ← hmod]

theorem field_setField_above (h : lo + len ≤ lo') :
    field (setField w lo len v) lo' len' = field w lo' len' := by
  obtain ⟨d, rfl⟩ := Nat.exists_eq_add_of_le h
  unfold field
  rw [pow_add 2 (lo + len) d, ← Nat.div_div_eq_div_mul, ← Nat.div_div_eq_div_mul, setField_div]

end Comus.BitField
