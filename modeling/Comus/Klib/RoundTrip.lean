import Comus.Klib.Numbers

/-!
# Numbers written and read back

`ulltoa` and `strtoull`, `lltoa` and `strtoll` are inverse to each other, up to the one
number that is its own negative.
-/

namespace Comus.Klib

open Word Bytes Numeral Option List
open Fs (ctoi isspace)

variable {radix n : Nat} {m : Memory} {c : UInt8} {s ds rest : List UInt8} {cast : Int → Int}
variable {σ : Int}

def signedDigits (σ : Int) (radix n : Nat) : List UInt8 := (Nat.digits radix n).map fun d : Nat => itoc (σ * d)

theorem putDigits_eq (hσ : σ = 1 ∨ σ = -1) (hr : 2 ≤ radix) (hr' : radix ≤ 36) {fuel : Nat}
    (hn : n < 2^fuel) (buffer : Nat) (m : Memory) :
    putDigits radix fuel (σ * n) buffer m =
      some (buffer + (signedDigits σ radix n).length, write m buffer (signedDigits σ radix n)) := by
  induction fuel generalizing n buffer m with
  | zero =>
    obtain rfl : n = 0 := by
      rw [pow_zero] at hn
      omega
    simp [putDigits, signedDigits]
  | succ fuel ih =>
    by_cases hzero : n = 0
    · simp [putDigits, signedDigits, hzero]
    have hne : σ * (n : Int) ≠ 0 := by
      rcases hσ with rfl | rfl <;> omega
    have hdiv : (σ * (n : Int)).tdiv radix = σ * ((n / radix : Nat) : Int) := by
      rcases hσ with rfl | rfl
      · rw [one_mul, one_mul]
        rfl
      · rw [neg_one_mul, neg_one_mul, Int.neg_tdiv]
        rfl
    have hmod : (σ * (n : Int)).tmod radix = σ * ((n % radix : Nat) : Int) := by
      rcases hσ with rfl | rfl
      · rw [one_mul, one_mul]
        rfl
      · rw [neg_one_mul, neg_one_mul, Int.neg_tmod]
        rfl
    have hsmall : n % radix < radix := Nat.mod_lt _ (by omega)
    have hcast : toI32 (σ * ((n % radix : Nat) : Int)) = σ * ((n % radix : Nat) : Int) := by
      apply toI32_of_small <;> rcases hσ with rfl | rfl <;> omega
    have hnext : n / radix < 2^fuel := by
      rw [pow_succ] at hn
      apply Nat.div_lt_of_lt_mul
      calc n < 2^fuel * 2 := hn
        _ ≤ radix * 2^fuel := by rw [mul_comm]; exact Nat.mul_le_mul_right _ hr
    have hdigits : signedDigits σ radix n =
        itoc (σ * ((n % radix : Nat) : Int)) :: signedDigits σ radix (n / radix) := by
      rw [signedDigits, Nat.digits_def' (by omega) (by omega), map_cons, signedDigits]
    rw [putDigits, if_neg hne, if_neg (by omega)]
    rw [hdiv, hmod, hcast, ih hnext, hdigits, write_cons, length_cons]
    congr 2
    omega

theorem signedDigits_ne_nil (hn : n ≠ 0) : signedDigits σ radix n ≠ [] := by
  unfold signedDigits
  rw [Ne, map_eq_nil_iff]
  exact Nat.digits_ne_nil_iff_ne_zero.mpr hn

theorem putNumber_eq (hσ : σ = 1 ∨ σ = -1) (hr : 2 ≤ radix) (hr' : radix ≤ 36) (hn : n ≠ 0)
    (hlt : n < 2^64) (start : Nat) (m : Memory) :
    putNumber radix (σ * n) start m = some (start + (signedDigits σ radix n).length,
      write m start ((signedDigits σ radix n).reverse ++ [0])) := by
  have hne : signedDigits σ radix n ≠ [] := signedDigits_ne_nil hn
  unfold putNumber
  rw [putDigits_eq hσ hr hr' hlt]
  generalize signedDigits σ radix n = ds at hne
  change some (start + ds.length, reverseIn (Function.update (write m start ds) (start + ds.length) 0)
    (start + ds.length - start) start (start + ds.length - 1)) = _
  rw [← write_singleton, write_comm le_rfl, reverseIn_write hne (by omega), ← write_comm (by simp),
    ← length_reverse, ← write_append]

theorem numeral_of_ne (hn : n ≠ 0) : numeral radix n = (signedDigits 1 radix n).reverse := by
  rw [numeral, if_neg hn, signedDigits]
  simp

theorem numeral_ne_nil : numeral radix n ≠ [] := by
  unfold numeral
  split_ifs with hn
  · simp
  · rw [Ne, reverse_eq_nil_iff, map_eq_nil_iff]
    exact Nat.digits_ne_nil_iff_ne_zero.mpr hn

section Radix

variable (hr : 2 ≤ radix) (hr' : radix ≤ 36)
include hr hr'

theorem uxtoa_eq (hlt : n < 2^64) (buffer : Nat) (m : Memory) :
    uxtoa 64 n buffer radix m =
      some (buffer + (numeral radix n).length, write m buffer (numeral radix n ++ [0])) := by
  unfold uxtoa
  by_cases hn : n = 0
  · rw [if_pos hn, numeral, if_pos hn, ← write_singleton, ← write_singleton, write_append]
    rfl
  · have hcast : (radix : Int) % 2^64 = radix := by omega
    rw [if_neg hn, hcast, numeral_of_ne hn, length_reverse, ← putNumber_eq (.inl rfl) hr hr' hn hlt, one_mul]

theorem lltoa_neg (hn : n ≠ 0) (hlt : n < 2^63) (buffer : Nat)
    (m : Memory) : lltoa (-n) buffer radix m =
      some (buffer + (45 :: numeral radix n).length, write m buffer (45 :: numeral radix n ++ [0])) := by
  have hcast : toI64 (-(-(n : Int))) = 1 * (n : Int) := by
    rw [neg_neg, one_mul, toI64_of_lt (by omega) (by omega)]
  rw [lltoa, xtoa, if_neg (by omega), if_pos (by omega), hcast, putNumber_eq (.inl rfl) hr hr' hn (by omega),
    numeral_of_ne hn, cons_append, write_cons, length_cons, length_reverse]
  congr 2
  omega

theorem lltoa_nonneg (hlt : n < 2^63) (buffer : Nat) (m : Memory) :
    lltoa n buffer radix m =
      some (buffer + (numeral radix n).length, write m buffer (numeral radix n ++ [0])) := by
  rw [lltoa, xtoa]
  by_cases hn : n = 0
  · rw [if_pos (by omega), numeral, if_pos hn, ← write_singleton, ← write_singleton, write_append]
    rfl
  · rw [if_neg (by omega), if_neg (by omega), numeral_of_ne hn, length_reverse,
      ← putNumber_eq (.inl rfl) hr hr' hn (by omega), one_mul]

/-- The smallest number stays negative, and so do its remainders. -/
theorem lltoa_min (buffer : Nat) (m : Memory) :
    lltoa (-2^63) buffer radix m = some (buffer + (45 :: (signedDigits (-1) radix (2^63)).reverse).length,
      write m buffer (45 :: (signedDigits (-1) radix (2^63)).reverse ++ [0])) := by
  have hcast : toI64 (-(-2^63)) = -1 * ((2^63 : Nat) : Int) := by
    unfold toI64
    norm_num
  rw [lltoa, xtoa, if_neg (by norm_num), if_pos (by norm_num), hcast,
    putNumber_eq (.inr rfl) hr hr' (by norm_num) (by norm_num), cons_append, write_cons,
    length_cons, length_reverse]
  congr 2
  omega

end Radix

theorem IsDigit.not_space {radix : Int} (h : IsDigit radix c) : isspace c = false := by
  have hspace : ∀ d : UInt8, d ∈ [32, 9, 11, 12, 13, 10] → ctoi d = -1 := by
    intro d hd
    fin_cases hd <;> decide
  by_contra hc
  rw [Bool.not_eq_false] at hc
  have hmem : c ∈ [32, 9, 11, 12, 13, 10] := by simpa [isspace] using hc
  have hneg := hspace c hmem
  unfold IsDigit at h
  omega

theorem IsDigit.ne_zero {radix : Int} (h : IsDigit radix c) : c ≠ 0 := by
  rintro rfl
  have hneg : ctoi 0 = -1 := by decide
  unfold IsDigit at h
  omega

theorem skipSpace_cons (hc : isspace c = false) : skipSpace (c :: s) = some (c :: s) := by
  rw [skipSpace, hc]
  rfl

theorem takeDigits_append {radix : Int} (hds : ∀ d ∈ ds, IsDigit radix d) (hc : ¬ IsDigit radix c)
    (num : Int) (hasDigit : Bool) :
    takeDigits cast radix (ds ++ c :: rest) num hasDigit =
      some ((ds.map ctoi).foldl (fun v d => cast (v * radix + d)) num, hasDigit || !ds.isEmpty, c :: rest) := by
  induction ds generalizing num hasDigit with
  | nil =>
    unfold IsDigit at hc
    rw [nil_append, takeDigits, if_pos (by omega)]
    simp
  | cons d ds ih =>
    have hd := hds d mem_cons_self
    unfold IsDigit at hd
    rw [cons_append, takeDigits, if_neg (by omega), ih fun e he => hds e (mem_cons_of_mem _ he)]
    simp

def valueOf (radix : Int) (ds : List UInt8) : Int := horner radix 0 (ds.map ctoi)

theorem takeDigits_value (hcast : Wraps cast) {radix : Int} (hds : ∀ d ∈ ds, IsDigit radix d)
    (hc : ¬ IsDigit radix c) (rest : List UInt8) : takeDigits cast radix (ds ++ c :: rest) 0 false =
      some (cast (valueOf radix ds), !ds.isEmpty, c :: rest) := by
  have hfold := hcast.horner (b := radix) (v := 0) (ds.map ctoi)
  rw [hcast.zero] at hfold
  rw [takeDigits_append hds hc, hfold, Bool.false_or]
  rfl

theorem takeRadix_plain {radix : Int} {x : UInt8} (hr : radix ≠ 0)
    (h : c ≠ 48 ∨ ¬ (x = 120 ∨ x = 88)) : takeRadix radix (c :: x :: s) = some (radix, c :: x :: s) := by
  unfold takeRadix
  dsimp only
  split_ifs with h16 hc hx
  · tauto
  · rfl
  · rfl
  · rfl

theorem wraps_mod : Wraps (· % 2^64) := by
  constructor
  · rfl
  · intro a b c
    rw [Int.add_emod, Int.mul_emod, Int.emod_emod, ← Int.mul_emod, ← Int.add_emod]

theorem toI64_emod (z : Int) : toI64 z % 2^64 = z % 2^64 := by
  unfold toI64
  split_ifs <;> omega

theorem toI64_congr {a b : Int} (h : a % 2^64 = b % 2^64) : toI64 a = toI64 b := by
  unfold toI64
  rw [h]

theorem wraps_toI64 : Wraps toI64 := by
  constructor
  · exact toI64_of_lt le_rfl (by norm_num)
  · intro a b c
    apply toI64_congr
    rw [Int.add_emod, Int.mul_emod, toI64_emod, ← Int.mul_emod, ← Int.add_emod]

section Numeral

variable (hr : 2 ≤ radix) (hr' : radix ≤ 36)
include hr hr'

theorem digits_lt_radix : ∀ d ∈ Nat.digits radix n, d < radix :=
  fun _ hd => Nat.digits_lt_base (by omega) hd

theorem isDigit_numeral : ∀ d ∈ numeral radix n, IsDigit radix d := by
  intro d hd
  unfold numeral at hd
  split_ifs at hd
  · rw [mem_singleton.mp hd]
    exact isDigit_itoc (d := 0) (by omega) hr'
  · obtain ⟨e, he, rfl⟩ := mem_map.mp (mem_reverse.mp hd)
    exact isDigit_itoc (digits_lt_radix hr hr' e he) hr'

theorem valueOf_numeral : valueOf radix (numeral radix n) = n := by
  unfold valueOf numeral
  split_ifs with hn
  · have hzero : ctoi 48 = 0 := by decide
    simp [hn, hzero]
  · have hdigits : ((Nat.digits radix n).map fun d : Nat => itoc d).reverse.map ctoi =
        (Nat.digits radix n).reverse.map (↑) := by
      rw [← map_reverse, List.map_map]
      apply map_congr_left
      intro d hd
      have hlt := digits_lt_radix hr hr' d (mem_reverse.mp hd)
      exact ctoi_itoc (by omega)
    rw [hdigits, horner_digits]

theorem numeral_head : ∃ c t, numeral radix n = c :: t ∧ isspace c = false ∧ IsDigit radix c ∧
    (c ≠ 48 ∨ t = []) := by
  have hne : numeral radix n ≠ [] := numeral_ne_nil
  obtain ⟨c, t, hct⟩ := exists_cons_of_ne_nil hne
  have hmem : c ∈ numeral radix n := hct ▸ mem_cons_self
  have hdigit := isDigit_numeral hr hr' c hmem
  refine ⟨c, t, hct, ?_, hdigit, ?_⟩
  · exact hdigit.not_space
  · unfold numeral at hct
    split_ifs at hct with hn
    · obtain ⟨-, rfl⟩ := cons.inj hct
      exact .inr rfl
    · have hdigits : Nat.digits radix n ≠ [] := Nat.digits_ne_nil_iff_ne_zero.mpr hn
      have hlast := Nat.getLast_digit_ne_zero radix hn
      have hlt := digits_lt_radix hr hr' _ (getLast_mem hdigits)
      have hhead : some c = some (itoc ((Nat.digits radix n).getLast hdigits : Nat)) := by
        have hc : ((Nat.digits radix n).map fun d : Nat => itoc d).reverse.head? = some c := by
          rw [hct]
          rfl
        rw [← hc, head?_reverse, getLast?_map, getLast?_eq_getLast_of_ne_nil hdigits]
        rfl
      left
      rw [some.inj hhead]
      intro hzero
      have hvalue := ctoi_itoc (d := (Nat.digits radix n).getLast hdigits) (by omega)
      rw [hzero] at hvalue
      have : ctoi 48 = 0 := by decide
      omega

theorem takeNumber_numeral (hcast : Wraps cast) (rest : List UInt8) :
    takeNumber cast radix (numeral radix n ++ 0 :: rest) = some (cast n, true, 0 :: rest) := by
  have hend : ¬ IsDigit (radix : Int) 0 := by
    have : ctoi 0 = -1 := by decide
    unfold IsDigit
    omega
  have hradix : takeRadix radix (numeral radix n ++ 0 :: rest) = some ((radix : Int), numeral radix n ++ 0 :: rest) := by
    obtain ⟨c, t, hct, -, -, hzero⟩ := numeral_head (n := n) hr hr'
    rw [hct, cons_append]
    cases t with
    | nil => exact takeRadix_plain (by omega) (.inr (by decide))
    | cons x t => exact takeRadix_plain (by omega) (.inl (hzero.resolve_right (by simp)))
  have hdigits := takeDigits_value hcast (isDigit_numeral (n := n) hr hr') hend rest
  have hfull : (numeral radix n).isEmpty = false := by simpa using numeral_ne_nil
  rw [valueOf_numeral hr hr', hfull] at hdigits
  unfold takeNumber
  rw [hradix]
  exact hdigits

theorem strtoull_numeral (hn : n < 2^64) (rest : List UInt8) :
    strtoull (numeral radix n ++ 0 :: rest) radix = some ((n : Int), 0 :: rest) := by
  have hskip : skipSpace (numeral radix n ++ 0 :: rest) = some (numeral radix n ++ 0 :: rest) := by
    obtain ⟨c, t, hct, hspace, -, -⟩ := numeral_head (n := n) hr hr'
    rw [hct, cons_append]
    exact skipSpace_cons hspace
  have hvalue : (n : Int) % 2^64 = n := by omega
  unfold strtoull strtoux
  rw [hskip, bind_eq_bind, bind_some, takeNumber_numeral hr hr' wraps_mod, hvalue]
  rfl

theorem strtoll_nonneg (hn : n < 2^63) (rest : List UInt8) :
    strtoll (numeral radix n ++ 0 :: rest) radix = some ((n : Int), 0 :: rest) := by
  obtain ⟨c, t, hct, hspace, hdigit, -⟩ := numeral_head (n := n) hr hr'
  have hsign : takeSign (numeral radix n ++ 0 :: rest) = (false, numeral radix n ++ 0 :: rest) := by
    have hminus : ctoi 45 = -1 := by decide
    have hplus : ctoi 43 = -1 := by decide
    unfold IsDigit at hdigit
    rw [hct, cons_append, takeSign, if_neg, if_neg]
    · rintro rfl
      omega
    · rintro rfl
      omega
  have hskip : skipSpace (numeral radix n ++ 0 :: rest) = some (numeral radix n ++ 0 :: rest) := by
    rw [hct, cons_append]
    exact skipSpace_cons hspace
  unfold strtoll strtox
  rw [hskip, bind_eq_bind, bind_some, hsign]
  dsimp only
  rw [takeNumber_numeral hr hr' wraps_toI64, toI64_of_lt (by omega) (by omega)]
  rfl

theorem strtoll_neg (hn : n < 2^63) (rest : List UInt8) :
    strtoll (45 :: numeral radix n ++ 0 :: rest) radix = some (-(n : Int), 0 :: rest) := by
  have hneg : toI64 (-(n : Int)) = -n := by
    unfold toI64
    split_ifs <;> omega
  unfold strtoll strtox
  rw [cons_append, skipSpace_cons (by decide), bind_eq_bind, bind_some]
  have hsign : takeSign (45 :: (numeral radix n ++ 0 :: rest)) = (true, numeral radix n ++ 0 :: rest) := rfl
  rw [hsign]
  dsimp only
  rw [takeNumber_numeral hr hr' wraps_toI64, toI64_of_lt (by omega) (by omega)]
  change some (toI64 (-(n : Int)), 0 :: rest) = _
  rw [hneg]

end Numeral

/-- `strtoull` reads back what `ulltoa` writes. -/
theorem strtoull_ulltoa (n buffer : Nat) (m : Memory) (radix : Nat) (hn : n < 2^64) (hr : 2 ≤ radix)
    (hr' : radix ≤ 36) : ∃ len m', ulltoa n buffer radix m = some (buffer + len, m') ∧
      m' (buffer + len) = 0 ∧ (∀ i, i < len → m' (buffer + i) ≠ 0) ∧
      ∀ size, len < size → strtoull (slice m' buffer size) radix =
        some ((n : Int), slice m' (buffer + len) (size - len)) := by
  refine ⟨_, _, uxtoa_eq hr hr' hn buffer m, ?_, ?_, ?_⟩
  · rw [Bytes.write_at (by simp), getD_append_right _ _ _ _ le_rfl, tsub_self]
    rfl
  · intro i hi
    rw [Bytes.write_at (by simp; omega), getD_append _ _ _ _ hi, getD_eq_getElem _ _ hi]
    exact (isDigit_numeral hr hr' _ (getElem_mem hi)).ne_zero
  · intro size hsize
    obtain ⟨rest, hall, hend⟩ := slice_text (m := m) (a := buffer) (c := 0) hsize
    rw [hall, hend]
    exact strtoull_numeral hr hr' hn rest

theorem strtoull_ulltoa_hex : ∃ len m', ulltoa 0 0 16 (fun _ => 120) = some (0 + len, m') ∧
    m' (0 + len) = 0 ∧ (∀ i, i < len → m' (0 + i) ≠ 0) ∧
    ∀ size, len < size → strtoull (slice m' 0 size) 16 = some (((0 : Nat) : Int), slice m' (0 + len) (size - len)) :=
  strtoull_ulltoa 0 0 (fun _ => 120) 16 (by decide) (by decide) (by decide)

def signText (n : Int) : List UInt8 := if n < 0 then [45] else []

def ReadsBack (n : Int) (buffer radix : Nat) (m : Memory) : Prop :=
  ∃ ds m', lltoa n buffer radix m = some (buffer + (signText n ++ ds).length, m') ∧
    m' = write m buffer (signText n ++ ds ++ [0]) ∧ ds ≠ [] ∧ (∀ d ∈ ds, IsDigit radix d) ∧
    ∀ size, (signText n ++ ds).length < size → strtoll (slice m' buffer size) radix =
      some (n, slice m' (buffer + (signText n ++ ds).length) (size - (signText n ++ ds).length))

theorem lltoa_min_not_readsBack {buffer radix : Nat} (hr : 2 ≤ radix) (hr' : radix ≤ 36) :
    ¬ ReadsBack (-2^63) buffer radix m := by
  rintro ⟨ds, m', hrun, hm', -, hdigits, -⟩
  rw [lltoa_min hr hr'] at hrun
  obtain ⟨hlen, hwrite⟩ := Prod.mk.inj (some.inj hrun)
  have hsign : signText (-2^63) = [45] := by decide
  rw [hsign, singleton_append] at hlen hm'
  have hten : (2^63 : Nat) ≠ 0 := by norm_num
  have hsame : (signedDigits (-1) radix (2^63)).reverse = ds := by
    have hslice : slice (write m buffer (45 :: (signedDigits (-1) radix (2^63)).reverse ++ [0])) buffer
        (45 :: (signedDigits (-1) radix (2^63)).reverse ++ [0]).length =
        45 :: (signedDigits (-1) radix (2^63)).reverse ++ [0] := slice_write
    have hlen' : (45 :: (signedDigits (-1) radix (2^63)).reverse ++ [0]).length = (45 :: ds ++ [0]).length := by
      rw [length_append, length_append]
      omega
    rw [hwrite, hm', hlen', slice_write] at hslice
    exact (append_left_injective [0] (cons.inj hslice).2).symm
  have hnonempty := Nat.digits_ne_nil_iff_ne_zero (b := radix).mpr hten
  have hlast := Nat.getLast_digit_ne_zero radix hten
  have hlt := digits_lt_radix hr hr' _ (getLast_mem hnonempty)
  have hmem : itoc (-1 * ((Nat.digits radix (2^63)).getLast hnonempty : Nat)) ∈ ds := by
    rw [← hsame, mem_reverse]
    exact mem_map.mpr ⟨_, getLast_mem hnonempty, rfl⟩
  have hdigit := (hdigits _ hmem).1
  rw [neg_one_mul, ctoi_itoc_neg (by omega) (by omega)] at hdigit
  omega

/-- `strtoll` reads back what `lltoa` writes, but for the smallest number. -/
theorem lltoa_readsBack_iff (n : Int) (buffer radix : Nat) (m : Memory) (hlow : -2^63 ≤ n) (hhigh : n < 2^63)
    (hr : 2 ≤ radix) (hr' : radix ≤ 36) : ReadsBack n buffer radix m ↔ n ≠ -2^63 := by
  constructor
  · rintro h rfl
    exact lltoa_min_not_readsBack hr hr' h
  · intro hne
    rcases lt_or_ge n 0 with hneg | hpos
    · obtain ⟨k, rfl⟩ : ∃ k : Nat, n = -k := ⟨n.natAbs, by omega⟩
      have hsign : signText (-(k : Int)) = [45] := if_pos hneg
      rw [ReadsBack, hsign]
      refine ⟨numeral radix k, write m buffer ([45] ++ numeral radix k ++ [0]), lltoa_neg hr hr' (by omega) (by omega) buffer m, rfl, numeral_ne_nil,
        isDigit_numeral hr hr', ?_⟩
      intro size hsize
      obtain ⟨rest, hall, hend⟩ := slice_text (m := m) (a := buffer) (c := 0) hsize
      rw [hall, hend]
      exact strtoll_neg hr hr' (by omega) rest
    · obtain ⟨k, rfl⟩ : ∃ k : Nat, n = k := ⟨n.toNat, by omega⟩
      have hsign : signText (k : Int) = [] := if_neg (by omega)
      rw [ReadsBack, hsign]
      refine ⟨numeral radix k, write m buffer ([] ++ numeral radix k ++ [0]), lltoa_nonneg hr hr' (by omega) buffer m, rfl, numeral_ne_nil,
        isDigit_numeral hr hr', ?_⟩
      intro size hsize
      obtain ⟨rest, hall, hend⟩ := slice_text (m := m) (a := buffer) (c := 0) hsize
      rw [hall, hend]
      exact strtoll_nonneg hr hr' (by omega) rest

theorem lltoa_readsBack_iff_negative : ReadsBack (-42) 0 16 (fun _ => 0) ↔ (-42 : Int) ≠ -2^63 :=
  lltoa_readsBack_iff (-42) 0 16 (fun _ => 0) (by decide) (by decide) (by decide) (by decide)

/-- Behind the minus sign of the smallest number stands the character eight places in front
of `0`, and nothing is read back. -/
theorem lltoa_min_garbled : ¬ ReadsBack (-2^63) 0 16 (fun _ => 0) ∧
    (lltoa (-2^63) 0 16 (fun _ => 0)).map (fun r => r.2 1) = some 40 ∧
    (lltoa (-2^63) 0 16 (fun _ => 0)).map (fun r => (strtoll (slice r.2 0 18) 16).map Prod.fst) =
      some (some 0) :=
  ⟨lltoa_min_not_readsBack (by decide) (by decide), by decide +kernel, by decide +kernel⟩

end Comus.Klib
