import Mathlib.Data.BitVec
import Mathlib.Tactic

/-!
# Fixed-width arithmetic over Nat and Int

Unsigned 64-bit values are natural numbers below `2^64`; `int` and `long` values
are integers in the two's-complement range. A conversion that C performs
silently is one of the functions below, so that it is visible in a model. They
are irreducible: unification must never start to compute with `2^64`.
-/

namespace Comus.Word

@[irreducible] def u64 (n : Nat) : Nat := n % 2^64

@[irreducible] def sub64 (a b : Nat) : Nat := (a + (2^64 - b % 2^64)) % 2^64

/-- Conversion to `int`: the low 32 bits read as a signed number. -/
@[irreducible] def toI32 (z : Int) : Int :=
  if z % 2^32 < 2^31 then z % 2^32 else z % 2^32 - 2^32

@[irreducible] def toI64 (z : Int) : Int :=
  if z % 2^64 < 2^63 then z % 2^64 else z % 2^64 - 2^64

/-- Conversion of a signed value to `uint64_t`: sign extension, then reinterpretation. -/
@[irreducible] def toU64 (z : Int) : Nat := (z % 2^64).toNat

/-- Rounding up to the next multiple of `m`, as `(x + m - 1) / m * m` does in 64 bits. -/
def alignUp (m x : Nat) : Nat := u64 (x + m - 1) / m * m

theorem u64_of_lt {n : Nat} (h : n < 2^64) : u64 n = n := by
  unfold u64
  omega

theorem u64_lt (n : Nat) : u64 n < 2^64 := by
  unfold u64
  omega

theorem sub64_of_le {a b : Nat} (h : b ≤ a) (ha : a < 2^64) : sub64 a b = a - b := by
  unfold sub64
  omega

theorem sub64_lt (a b : Nat) : sub64 a b < 2^64 := by
  unfold sub64
  omega

theorem toI32_of_lt {z : Int} (h0 : 0 ≤ z) (h : z < 2^31) : toI32 z = z := by
  unfold toI32
  omega

theorem toI32_of_ge {z : Int} (h : 2^31 ≤ z) (hlt : z < 2^32 + 2^31) : toI32 z = z - 2^32 := by
  unfold toI32
  omega

theorem toI64_of_lt {z : Int} (h0 : 0 ≤ z) (h : z < 2^63) : toI64 z = z := by
  unfold toI64
  omega

theorem toI64_lt (z : Int) : toI64 z < 2^63 := by
  unfold toI64
  omega

theorem toU64_of_nonneg {z : Int} (h0 : 0 ≤ z) (h : z < 2^64) : toU64 z = z.toNat := by
  unfold toU64
  omega

theorem toU64_of_neg {z : Int} (h0 : z < 0) (h : -2^64 ≤ z) : toU64 z = (z + 2^64).toNat := by
  unfold toU64
  omega

@[simp] theorem toU64_natCast (n : Nat) : toU64 (n : Int) = u64 n := by
  unfold toU64 u64
  omega

theorem toU64_lt (z : Int) : toU64 z < 2^64 := by
  unfold toU64
  omega

theorem toU64_eq_iff {a b : Int} : toU64 a = toU64 b ↔ a % 2^64 = b % 2^64 := by
  unfold toU64
  omega

theorem toU64_add (a b : Int) : toU64 ((toU64 a : Nat) + b) = toU64 (a + b) := by
  unfold toU64
  omega

theorem toI32_range (z : Int) : -2^31 ≤ toI32 z ∧ toI32 z < 2^31 := by
  unfold toI32
  omega

theorem toI32_add (a b : Int) : toI32 (toI32 a + toI32 b) = toI32 (a + b) := by
  unfold toI32
  split_ifs <;> omega

theorem alignUp_dvd (m x : Nat) : m ∣ alignUp m x := Nat.dvd_mul_left _ _

theorem le_alignUp {m x : Nat} (hm : 0 < m) (h : x + m < 2^64) : x ≤ alignUp m x := by
  have hu : u64 (x + m - 1) = x + m - 1 := u64_of_lt (by omega)
  have hd := Nat.div_add_mod (x + m - 1) m
  have hr := Nat.mod_lt (x + m - 1) hm
  unfold alignUp
  rw [hu, mul_comm]
  omega

end Comus.Word
