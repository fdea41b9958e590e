import Comus.Klib.RoundTrip
import Mathlib.Data.Rat.Cast.Order

/-!
# Byte counts for humans (kernel/lib/btoa.c)

The last remainder of the divisions by 1024 gives the decimal, so that the number that is
printed is cut off twice.
-/

namespace Comus.Klib

open Word Bytes Option List Function

def suffixes : List UInt8 := [75, 77, 71, 84, 80, 69, 90, 89, 82, 81]

/-- The loop: what is left of the bytes, the remainder and the power. Nothing is left of a
number of 64 bits after seven rounds. -/
def scaleDown : Nat → Nat → Nat → Nat → Option (Nat × Nat × Nat)
  | fuel, bytes, remainder, power =>
    if bytes < 1000 then some (bytes, remainder, power)
    else
      match fuel with
      | 0 => none
      | fuel + 1 => scaleDown fuel (bytes / 1024) (bytes % 1024 * 10 / 1024 % 2^32) (power + 1)

/-- `remainder` is not set at first. `none` is also an index outside of the suffixes. -/
def btoa (remainder bytes buf : Nat) (m : Memory) : Option Memory :=
  if bytes < 1024 then (ultoa bytes buf 10 m).map Prod.snd
  else do
    let (bytes, remainder, power) ← scaleDown 7 bytes remainder 0
    let (last, m) ← ultoa bytes buf 10 m
    let (last, m) ← if bytes ≥ 10 then some (last, m) else ultoa remainder (last + 1) 10 (update m last 46)
    let suffix ← if power = 0 then none else suffixes[power - 1]?
    some (update (update m last suffix) (last + 1) 0)

def limit (p : Nat) : Nat := if p = 0 then 1024 else 1000

structure IsPower (bytes p : Nat) : Prop where
  small : bytes / 1024^p < limit p
  least : ∀ j, j < p → limit j ≤ bytes / 1024^j

theorem scaleDown_eq (fuel bytes remainder power : Nat) (h : bytes / 1024^fuel < 1000) :
    ∃ k, k ≤ fuel ∧ bytes / 1024^k < 1000 ∧ (∀ j, j < k → 1000 ≤ bytes / 1024^j) ∧
      scaleDown fuel bytes remainder power = some (bytes / 1024^k,
        if k = 0 then remainder else bytes / 1024^(k - 1) % 1024 * 10 / 1024, power + k) := by
  induction fuel generalizing bytes remainder power with
  | zero =>
    rw [pow_zero, Nat.div_one] at h
    refine ⟨0, le_rfl, by simpa using h, by simp, ?_⟩
    rw [scaleDown, if_pos h]
    simp
  | succ fuel ih =>
    by_cases hsmall : bytes < 1000
    · refine ⟨0, Nat.zero_le _, by simpa using hsmall, by simp, ?_⟩
      rw [scaleDown, if_pos hsmall]
      simp
    · have hdiv : ∀ j, bytes / 1024 / 1024^j = bytes / 1024^(j + 1) := by
        intro j
        rw [Nat.div_div_eq_div_mul, pow_succ']
      rw [← hdiv] at h
      obtain ⟨k, hk, hlt, hge, hrun⟩ := ih _ (bytes % 1024 * 10 / 1024 % 2^32) (power + 1) h
      refine ⟨k + 1, by omega, by rw [← hdiv]; exact hlt, ?_, ?_⟩
      · intro j hj
        cases j with
        | zero => simpa using Nat.le_of_not_lt hsmall
        | succ j =>
          rw [← hdiv]
          exact hge j (by omega)
      · rw [scaleDown, if_neg hsmall]
        rw [hrun, hdiv, if_neg (Nat.succ_ne_zero k), Nat.add_sub_cancel]
        congr 3
        · by_cases hk0 : k = 0
          · rw [if_pos hk0, hk0, pow_zero, Nat.div_one]
            omega
          · obtain ⟨j, rfl⟩ := Nat.exists_eq_succ_of_ne_zero hk0
            rw [if_neg hk0, Nat.succ_sub_one, hdiv]
        · omega

theorem numeral_length_le {n k : Nat} (hk : 0 < k) (h : n < 10^k) : (numeral 10 n).length ≤ k := by
  unfold numeral
  split_ifs
  · exact hk
  · rw [length_reverse, length_map]
    exact (Nat.digits_length_le_iff (by decide) n).mpr h

def btoaText (q : Nat) (decimal : Option Nat) (p : Nat) : List UInt8 :=
  numeral 10 q ++ decimal.elim [] (fun r => 46 :: numeral 10 r) ++
    if p = 0 then [] else (suffixes[p - 1]?).toList

def printed (q : Nat) (decimal : Option Nat) : ℚ := decimal.elim q fun r => q + r / 10

theorem btoaText_length {q p : Nat} {decimal : Option Nat} (hq : q < limit p)
    (hsome : ∀ r, decimal = some r → q < 10 ∧ r < 10) : (btoaText q decimal p).length ≤ 4 := by
  have hsuffix : (suffixes[p - 1]?).toList.length ≤ 1 := by
    cases suffixes[p - 1]? <;> simp
  unfold btoaText limit at *
  rw [length_append, length_append]
  cases decimal with
  | none =>
    rw [elim_none, length_nil]
    split_ifs at hq ⊢ with hp
    · have hlen := numeral_length_le (n := q) (k := 4) (by decide) (by omega)
      rw [length_nil]
      omega
    · have hlen := numeral_length_le (n := q) (k := 3) (by decide) (by omega)
      omega
  | some r =>
    obtain ⟨hq', hr⟩ := hsome r rfl
    have hlen := numeral_length_le (n := q) (k := 1) (by decide) (by omega)
    have hlen' := numeral_length_le (n := r) (k := 1) (by decide) (by omega)
    rw [elim_some, length_cons]
    split_ifs
    · rw [length_nil]
      omega
    · omega

/-- The decimal is cut off, and so is the count that it is computed from. -/
theorem decimal_error (bytes : Nat) {D : Nat} (hD : 0 < D) :
    0 ≤ (bytes : ℚ) / (D * 1024) - ((bytes / D / 1024 : Nat) + (bytes / D % 1024 * 10 / 1024 : Nat) / 10) ∧
    (bytes : ℚ) / (D * 1024) - ((bytes / D / 1024 : Nat) + (bytes / D % 1024 * 10 / 1024 : Nat) / 10) <
      1 / 10 + 1 / 1024 := by
  have hlow : bytes / D * D ≤ bytes := Nat.div_mul_le_self _ _
  have hhigh : bytes < (bytes / D + 1) * D := by
    rw [mul_comm]
    exact Nat.lt_mul_div_succ bytes hD
  generalize bytes / D = u at hlow hhigh ⊢
  have hu : u = 1024 * (u / 1024) + u % 1024 := by omega
  have hr : u % 1024 * 10 / 1024 * 1024 ≤ u % 1024 * 10 := Nat.div_mul_le_self _ _
  have hr' : u % 1024 * 10 < (u % 1024 * 10 / 1024 + 1) * 1024 := by omega
  generalize u % 1024 * 10 / 1024 = r at hr hr' ⊢
  generalize u / 1024 = q at hu ⊢
  generalize u % 1024 = w at hu hr hr'
  have hD' : (0 : ℚ) < D * 1024 := by positivity
  have hD₀ : (0 : ℚ) < D := by positivity
  rw [hu] at hlow hhigh
  have hlow' : (1024 * q + w : ℚ) * D ≤ bytes := by exact_mod_cast hlow
  have hhigh' : (bytes : ℚ) < (1024 * q + w + 1) * D := by exact_mod_cast hhigh
  have hr₁ : (r : ℚ) * 1024 ≤ w * 10 := by exact_mod_cast hr
  have hr₂ : (w : ℚ) * 10 < (r + 1) * 1024 := by exact_mod_cast hr'
  constructor
  · rw [sub_nonneg, le_div_iff₀ hD']
    calc (q + r / 10 : ℚ) * (D * 1024) = (1024 * q + r * 1024 / 10) * D := by ring
      _ ≤ (1024 * q + w) * D := by
        apply mul_le_mul_of_nonneg_right _ hD₀.le
        linarith
      _ ≤ bytes := hlow'
  · rw [sub_lt_iff_lt_add, div_lt_iff₀ hD']
    calc (bytes : ℚ) < (1024 * q + w + 1) * D := hhigh'
      _ ≤ (1024 * q + (r + 1) * 1024 / 10 + 1) * D := by
        apply mul_le_mul_of_nonneg_right _ hD₀.le
        linarith
      _ = (1 / 10 + 1 / 1024 + (q + r / 10)) * (D * 1024) := by ring

theorem ultoa_eq {n : Nat} (hn : n < 2^64) (a : Nat) (m : Memory) :
    ultoa n a 10 m = some (a + (numeral 10 n).length, write m a (numeral 10 n ++ [0])) :=
  uxtoa_eq (by decide) (by decide) hn a m

/-- A count that needs a suffix: the terminator of each part is replaced by what follows. -/
theorem btoa_large {remainder bytes buf p q r : Nat} {m : Memory} {suffix : UInt8} (hlarge : 1024 ≤ bytes)
    (hscale : scaleDown 7 bytes remainder 0 = some (q, r, p)) (hp : p ≠ 0)
    (hsuffix : suffixes[p - 1]? = some suffix) (hq : q < 2^64) (hr : r < 2^64) :
    btoa remainder bytes buf m =
      some (write m buf (btoaText q (if q ≥ 10 then none else some r) p ++ [0])) := by
  have hlast : ∀ bs : List UInt8, update (update (write m buf (bs ++ [0])) (buf + bs.length) suffix)
      (buf + bs.length + 1) 0 = write m buf (bs ++ [suffix] ++ [0]) := by
    intro bs
    have hlen : buf + bs.length + 1 = buf + (bs ++ [suffix]).length := by
      rw [length_append, length_singleton, add_assoc]
    rw [write_replace, hlen, ← write_concat]
  unfold btoa btoaText
  rw [if_neg (by omega), hscale, if_neg hp, hsuffix]
  simp only [bind_eq_bind, bind_some, ultoa_eq hq, toList_some]
  split_ifs with hten
  · rw [hsuffix, bind_some, hlast, elim_none, append_nil]
  · have hpoint : update (write m buf (numeral 10 q ++ [0])) (buf + (numeral 10 q).length) 46 =
        write m buf (numeral 10 q ++ [46]) := write_replace
    have hlen : buf + (numeral 10 q).length + 1 = buf + (numeral 10 q ++ [46]).length := by
      rw [length_append, length_singleton, add_assoc]
    have hlen' : buf + (numeral 10 q ++ [46]).length + (numeral 10 r).length =
        buf + (numeral 10 q ++ [46] ++ numeral 10 r).length := by
      have happend : (numeral 10 q ++ [46] ++ numeral 10 r).length =
          (numeral 10 q ++ [46]).length + (numeral 10 r).length := length_append
      rw [happend, add_assoc]
    rw [hpoint, hlen, ultoa_eq hr, ← write_append, ← append_assoc, hlen', bind_some, hsuffix,
      bind_some]
    dsimp only
    rw [hlast, elim_some, append_assoc (numeral 10 q), singleton_append]

/-- What `btoa` writes is the count, at most one decimal and the suffix. -/
theorem btoa_correct (remainder bytes buf : Nat) (m : Memory) (h : bytes < 2^64) :
    ∃ p q decimal, IsPower bytes p ∧ (p ≠ 0 → p - 1 < suffixes.length) ∧
      btoa remainder bytes buf m = some (write m buf (btoaText q decimal p ++ [0])) ∧
      (btoaText q decimal p).length ≤ 4 ∧
      (decimal.isSome ↔ 1 ≤ p ∧ bytes / 1024^p < 10) ∧
      (decimal = none → printed q decimal = (bytes / 1024^p : Nat)) ∧
      (decimal.isSome → 0 ≤ (bytes : ℚ) / 1024^p - printed q decimal ∧
        (bytes : ℚ) / 1024^p - printed q decimal < 1 / 10 + 1 / 1024) := by
  by_cases hsmall : bytes < 1024
  · refine ⟨0, bytes, none, ⟨?_, by simp⟩, by simp, ?_, ?_, by simp, ?_, by simp⟩
    · simpa [limit] using hsmall
    · rw [btoa, if_pos hsmall, ultoa_eq h, btoaText]
      simp
    · exact btoaText_length (by simpa [limit] using hsmall) (by simp)
    · intro _
      simp [printed]
  · obtain ⟨p, hp, hlt, hge, hscale⟩ := scaleDown_eq 7 bytes remainder 0 (by
      rw [Nat.div_eq_of_lt (h.trans (by norm_num))]
      decide)
    have hpos : p ≠ 0 := by
      rintro rfl
      rw [pow_zero, Nat.div_one] at hlt
      omega
    obtain ⟨k, rfl⟩ := Nat.exists_eq_succ_of_ne_zero hpos
    rw [if_neg hpos, zero_add, Nat.succ_sub_one] at hscale
    have hdiv : bytes / 1024^(k + 1) = bytes / 1024^k / 1024 := by
      rw [Nat.div_div_eq_div_mul, pow_succ]
    have hindex : k + 1 - 1 < suffixes.length := by
      change k + 1 - 1 < 10
      omega
    refine ⟨k + 1, bytes / 1024^(k + 1), if bytes / 1024^(k + 1) ≥ 10 then none
      else some (bytes / 1024^k % 1024 * 10 / 1024), ⟨?_, ?_⟩, fun _ => hindex, ?_, ?_, ?_, ?_, ?_⟩
    · rw [limit, if_neg hpos]
      exact hlt
    · intro j hj
      unfold limit
      split_ifs with hj0
      · rw [hj0, pow_zero, Nat.div_one]
        omega
      · exact hge j hj
    · exact btoa_large (by omega) hscale hpos (getElem?_eq_getElem hindex) (hlt.trans (by norm_num)) (by omega)
    · apply btoaText_length
      · rw [limit, if_neg hpos]
        exact hlt
      · intro r hr
        split_ifs at hr with hten
        cases hr
        omega
    · split_ifs with hten
      · simp
        omega
      · simp
        omega
    · split_ifs with hten
      · intro _
        rfl
      · intro hnone
        cases hnone
    · split_ifs with hten
      · intro hnone
        cases hnone
      · intro _
        have herror := decimal_error bytes (D := 1024^k) (by positivity)
        rw [hdiv, pow_succ]
        push_cast at herror ⊢
        exact herror

theorem btoa_correct_max : ∃ p q decimal, IsPower (2^64 - 1) p ∧ (p ≠ 0 → p - 1 < suffixes.length) ∧
    btoa 0 (2^64 - 1) 0 (fun _ => 0) = some (write (fun _ => 0) 0 (btoaText q decimal p ++ [0])) ∧
    (btoaText q decimal p).length ≤ 4 ∧
    (decimal.isSome ↔ 1 ≤ p ∧ (2^64 - 1) / 1024^p < 10) ∧
    (decimal = none → printed q decimal = ((2^64 - 1) / 1024^p : Nat)) ∧
    (decimal.isSome → 0 ≤ ((2^64 - 1 : Nat) : ℚ) / 1024^p - printed q decimal ∧
      ((2^64 - 1 : Nat) : ℚ) / 1024^p - printed q decimal < 1 / 10 + 1 / 1024) :=
  btoa_correct 0 (2^64 - 1) 0 (fun _ => 0) (by norm_num)

end Comus.Klib
