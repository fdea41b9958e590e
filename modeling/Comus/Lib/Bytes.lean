import Mathlib.Tactic

/-!
# Byte memory and little-endian words

A memory gives a byte for every address. A word of eight bytes is read and
written at any address, aligned or not, so that words may overlap.
-/

namespace Comus.Bytes

abbrev Memory : Type := Nat → UInt8

def loadLe (m : Memory) (a : Nat) : (width : Nat) → Nat
  | 0 => 0
  | width + 1 => (m a).toNat + 256 * loadLe m (a + 1) width

def load64 (m : Memory) (a : Nat) : Nat := loadLe m a 8

def store64 (m : Memory) (a v : Nat) : Memory := fun i =>
  if a ≤ i ∧ i < a + 8 then UInt8.ofNat (v / 256 ^ (i - a)) else m i

variable {m m' : Memory} {a b v : Nat}

theorem loadLe_congr {width : Nat} (h : ∀ i, a ≤ i → i < a + width → m i = m' i) :
    loadLe m a width = loadLe m' a width := by
  induction width generalizing a with
  | zero => rfl
  | succ width ih =>
    unfold loadLe
    rw [h a le_rfl (by omega), ih fun i hi hi' => h i (by omega) (by omega)]

theorem load64_congr (h : ∀ i, a ≤ i → i < a + 8 → m i = m' i) : load64 m a = load64 m' a :=
  loadLe_congr h

theorem loadLe_lt (m : Memory) (a width : Nat) : loadLe m a width < 256 ^ width := by
  induction width generalizing a with
  | zero => simp [loadLe]
  | succ width ih =>
    have hbyte := (m a).toNat_lt
    have htail := ih (a + 1)
    unfold loadLe
    rw [pow_succ']
    omega

theorem load64_lt (m : Memory) (a : Nat) : load64 m a < 2^64 := loadLe_lt m a 8

theorem loadLe_digits {width : Nat} (h : ∀ i, i < width → m (a + i) = UInt8.ofNat (v / 256 ^ i)) :
    loadLe m a width = v % 256 ^ width := by
  induction width generalizing a v with
  | zero => simp [loadLe, Nat.mod_one]
  | succ width ih =>
    have hhead : (m a).toNat = v % 256 := by
      have := h 0 (Nat.succ_pos _)
      simp only [add_zero, pow_zero, Nat.div_one] at this
      rw [this, UInt8.toNat_ofNat']
    have htail : loadLe m (a + 1) width = v / 256 % 256 ^ width := by
      apply ih
      intro i hi
      rw [Nat.div_div_eq_div_mul, ← pow_succ', ← h (i + 1) (by omega)]
      congr 1
      omega
    unfold loadLe
    rw [hhead, htail, pow_succ', Nat.mod_mul]

theorem load64_store64 (hv : v < 2^64) : load64 (store64 m a v) a = v := by
  have hload : load64 (store64 m a v) a = v % 256 ^ 8 := by
    apply loadLe_digits
    intro i hi
    unfold store64
    rw [if_pos (by omega), Nat.add_sub_cancel_left]
  rw [hload]
  exact Nat.mod_eq_of_lt (by omega)

theorem load64_store64_apart (h : a + 8 ≤ b ∨ b + 8 ≤ a) :
    load64 (store64 m a v) b = load64 m b := by
  apply load64_congr
  intro i hi hi'
  unfold store64
  rw [if_neg (by omega)]

end Comus.Bytes
