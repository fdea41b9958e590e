import Comus.Klib.PrintfOutput

/-!
# Numbers in formatted output (printf_lltoa, handle_int_specifier)

The numeral that is built in the buffer has a length in closed form. A numeral is emitted
together with its terminator, and a small argument is read without its sign.
-/

namespace Comus.Printf

open Word Bytes Klib Option List

variable {E E₁ E₂ : Env} {opts : Options} {num i : Nat}
variable {r body cs : List UInt8} {len n : Int} {c pad : UInt8} {a : Nat}

theorem lltoaRounds_eq (hr : 2 ≤ opts.radix) (fuel : Nat) (k : Int) (num : Nat) (h : num < 2^fuel) :
    lltoaRounds opts fuel k num =
      if opts.precisionSet then (Nat.digits opts.radix num).take (opts.precision - k).toNat
      else Nat.digits opts.radix num := by
  induction fuel generalizing k num with
  | zero =>
    have hzero : num = 0 := by omega
    simp [hzero, lltoaRounds]
  | succ fuel ih =>
    rw [lltoaRounds]
    by_cases hnum : num = 0
    · simp [hnum]
    have hdiv : num / opts.radix < 2^fuel := by
      have hle : num / opts.radix ≤ num / 2 := Nat.div_le_div_left hr (by omega)
      omega
    have hdigits := Nat.digits_def' (by omega : 1 < opts.radix) (Nat.pos_of_ne_zero hnum)
    rw [if_neg hnum, ih _ _ hdiv, hdigits]
    by_cases hset : opts.precisionSet = true
    · by_cases hstop : k ≥ opts.precision
      · rw [if_pos ⟨hset, hstop⟩, if_pos hset, Int.toNat_of_nonpos (by omega), take_zero]
      · have hcount : (opts.precision - k).toNat = (opts.precision - (k + 1)).toNat + 1 := by omega
        rw [if_neg (fun h => hstop h.2), if_pos hset, if_pos hset, hcount, take_succ_cons]
    · rw [if_neg (fun h => hset h.1), if_neg hset, if_neg hset]

def digitCount (opts : Options) (num : Nat) : Nat :=
  if num = 0 then 1
  else if opts.precisionSet then min opts.precision.toNat (Nat.digits opts.radix num).length
  else (Nat.digits opts.radix num).length

theorem lltoaDigits_length (hr : 2 ≤ opts.radix) (hnum : num < 2^64) :
    (lltoaDigits opts num).length = digitCount opts num := by
  unfold lltoaDigits digitCount
  split_ifs with hzero hset
  · rfl
  · rw [length_map, lltoaRounds_eq hr 64 0 num hnum, if_pos hset, length_take, Int.sub_zero]
  · rw [length_map, lltoaRounds_eq hr 64 0 num hnum, if_neg hset]

/-- The characters of a numeral: its digits with zeros up to the width, the radix, the sign
and the terminator. -/
def numeralLen (opts : Options) (isNeg : Bool) (num : Nat) : Nat :=
  max (digitCount opts num) (if opts.widthSet ∧ opts.zero then opts.width.toNat else 0) +
    (if opts.hash ∧ opts.radix ≠ 10 then 2 else 0) + (if isNeg ∨ opts.sign ∨ opts.space then 1 else 0) + 1

theorem lltoaZeros_length (opts : Options) (len : Nat) :
    len + (lltoaZeros opts len).length = max len (if opts.widthSet ∧ opts.zero then opts.width.toNat else 0) := by
  unfold lltoaZeros
  split_ifs with hpad hset hset
  · rw [length_replicate]
    omega
  · exact absurd ⟨hpad.1, hpad.2.2⟩ hset
  · have hwide : ¬ (len : Int) < opts.width := fun h => hpad ⟨hset.1, h, hset.2⟩
    rw [length_nil]
    omega
  · rw [length_nil, Nat.max_zero, add_zero]

theorem lltoaRadix_length (hr : opts.radix ∈ [2, 8, 10, 16]) :
    (lltoaRadix opts).length = if opts.hash ∧ opts.radix ≠ 10 then 2 else 0 := by
  unfold lltoaRadix
  simp only [mem_cons, not_mem_nil, or_false] at hr
  rcases hr with hr | hr | hr | hr <;> by_cases hhash : opts.hash = true <;> simp [hr, hhash]

theorem lltoaSign_length (opts : Options) (isNeg : Bool) :
    (lltoaSign opts isNeg).length = if isNeg ∨ opts.sign ∨ opts.space then 1 else 0 := by
  unfold lltoaSign
  rcases isNeg with _ | _
  · by_cases hsign : opts.sign = true <;> by_cases hspace : opts.space = true <;> simp [hsign, hspace]
  · simp

theorem printfLltoa_length (hr : opts.radix ∈ [2, 8, 10, 16]) (hnum : num < 2^64) (isNeg : Bool) :
    (printfLltoa opts isNeg num).length = numeralLen opts isNeg num := by
  have htwo : 2 ≤ opts.radix := by
    simp only [mem_cons, not_mem_nil, or_false] at hr
    omega
  have hzeros := lltoaZeros_length opts (lltoaDigits opts num).length
  simp only [printfLltoa, numeralLen, length_append, length_singleton, lltoaRadix_length hr,
    lltoaSign_length, ← lltoaDigits_length htwo hnum, hzeros]

theorem finalOptions_radix (E : Env) (opts : Options) (spec : UInt8) (i : Nat) :
    (finalOptions E opts spec i).1.radix = (getRadix spec opts).radix := by
  unfold finalOptions readVaried getCase
  by_cases hcase : spec = 88 <;> by_cases hwidth : opts.widthVaries = true <;>
    by_cases hprec : opts.precisionVaries = true <;> simp [getRadix, hcase, hwidth, hprec]

def Built (opts : Options) : Prop := ∃ E t o spec rest i, parseDirective t = some (o, spec, rest) ∧
  (opts = (finalOptions E o spec i).1 ∨ spec = 112 ∧ opts = pointerOptions (finalOptions E o spec i).1)

theorem Built.radix_mem (h : Built opts) : opts.radix ∈ [2, 8, 10, 16] := by
  obtain ⟨E, t, o, spec, rest, i, -, rfl | ⟨-, rfl⟩⟩ := h
  · rw [finalOptions_radix, getRadix]
    dsimp only
    split_ifs <;> decide
  · exact mem_of_getElem? (i := 3) rfl

/-- The numeral fits exactly if its length in closed form does. -/
theorem printfLltoa_fits_iff (h : Built opts) (hnum : num < 2^64) (isNeg : Bool) :
    (printfLltoa opts isNeg num).length ≤ printfNumericBufLen ↔ numeralLen opts isNeg num ≤ 50 := by
  rw [printfLltoa_length h.radix_mem hnum]
  rfl

/-- `%+#lo` of the largest number. -/
theorem printfLltoa_fits_iff_max :
    (printfLltoa { sign := true, hash := true, widthSet := true, len := .longInt, radix := 8 } false
      (2^64 - 1)).length ≤ printfNumericBufLen := by
  have hparse : parseDirective [43, 35, 108, 111, 0] =
      some ({ sign := true, hash := true, widthSet := true, len := .longInt }, 111, [0]) := by
    decide +kernel
  have hbuilt : Built { sign := true, hash := true, widthSet := true, len := .longInt, radix := 8 } :=
    ⟨noArgs, _, _, _, _, 0, hparse, .inl rfl⟩
  refine (printfLltoa_fits_iff hbuilt (by decide) false).mpr ?_
  decide +kernel

def oneArg (n : Nat) : Env := ⟨fun _ => n, fun _ => []⟩

/-- `%lb` of `2^63` has 64 digits and a terminator. -/
theorem printfLltoa_overrun :
    (printfLltoa { widthSet := true, len := .longInt, radix := 2 } false (2^63)).length = 65 ∧
    round (oneArg (2^63)) [37, 108, 98, 0] 0 = .ok (some (.smash, [0], 1)) := by
  constructor
  · decide +kernel
  · rfl

def Emits (E : Env) (fmt : List UInt8) (i : Nat) (cs : List UInt8) : Prop :=
  ∃ rest j, round E fmt i = .ok (some (.chars cs, rest, j))

theorem finalOptions_len (E : Env) (opts : Options) (len : PrintfLen) (i : Nat) :
    finalOptions E { opts with len := len } 100 i =
      ({ (finalOptions E opts 100 i).1 with len := len }, (finalOptions E opts 100 i).2) := by
  unfold finalOptions readVaried
  by_cases hwidth : opts.widthVaries = true <;> by_cases hprec : opts.precisionVaries = true <;>
    simp [getCase, getRadix, hwidth, hprec]

theorem lltoaRounds_len (opts : Options) (len : PrintfLen) (fuel : Nat) (k : Int) (num : Nat) :
    lltoaRounds { opts with len := len } fuel k num = lltoaRounds opts fuel k num := by
  induction fuel generalizing k num with
  | zero => rfl
  | succ fuel ih => rw [lltoaRounds, lltoaRounds, ih]

theorem handleIntSpecifier_len (opts : Options) (len : PrintfLen) (num : Nat) :
    handleIntSpecifier { opts with len := len } true num = handleIntSpecifier opts true num := by
  have hbuf : ∀ isNeg n, printfLltoa { opts with len := len } isNeg n = printfLltoa opts isNeg n := by
    intro isNeg n
    simp only [printfLltoa, lltoaDigits, lltoaRounds_len]
    rfl
  simp only [handleIntSpecifier, hbuf]
  rfl

theorem round_signed {t u : List UInt8} {len : PrintfLen} (hopts : parseOptions t = some (opts, u))
    (hlen : parseLength u opts = some ({ opts with len := len }, 100 :: r)) (E : Env) (i : Nat) :
    round E (37 :: t) i =
      .ok (some (handleIntSpecifier (finalOptions E opts 100 i).1 true (readNumber E len (finalOptions E opts 100 i).2), r,
        (finalOptions E opts 100 i).2 + 1)) := by
  have hparse : parseDirective t = some ({ opts with len := len }, 100, r) := by
    simp [parseDirective, hopts, hlen]
  have hdirect : ∀ source, direct E { opts with len := len } 100 source i =
      some (handleIntSpecifier (finalOptions E opts 100 i).1 true (readNumber E len (finalOptions E opts 100 i).2),
        (finalOptions E opts 100 i).2 + 1) := by
    intro source
    have hspec : Specifier.of 100 = .signed := by decide
    have hread := finalOptions_len E opts len i
    simp only [direct, hread, handle, hspec, handleIntSpecifier_len]
  simp [round, hparse, hdirect]

theorem readVaried_congr (h : ∀ j, j < (readVaried E₁ opts i).2 → E₁.args j = E₂.args j) :
    readVaried E₁ opts i = readVaried E₂ opts i := by
  unfold readVaried at h ⊢
  by_cases hwidth : opts.widthVaries = true <;> by_cases hprec : opts.precisionVaries = true <;>
    simp only [hwidth, hprec, if_true, if_false, Bool.false_eq_true] at h ⊢
  · rw [h i (by omega), h (i + 1) (by omega)]
  · rw [h i (by omega)]
  · rw [h i (by omega)]

theorem handleIntSpecifier_pos (opts : Options) (hnum : num < 2^63) :
    handleIntSpecifier opts true num =
      if printfNumericBufLen < (printfLltoa opts false num).length then .smash
      else .chars (justify opts (if opts.zero then 48 else 32) (printfLltoa opts false num).length
        (printfLltoa opts false num).reverse) := by
  have hpos : decide (toI64 num < 0) = false := by
    rw [toI64_of_lt (by omega) (by omega)]
    simp
  simp [handleIntSpecifier, hpos]

theorem mem_justify (h : c ∈ justify opts pad len body) :
    c = pad ∨ c ∈ body := by
  unfold justify at h
  split_ifs at h
  · rcases mem_append.mp h with h | h
    · exact .inr h
    · exact .inl (eq_of_mem_replicate h)
  · rcases mem_append.mp h with h | h
    · exact .inl (eq_of_mem_replicate h)
    · exact .inr h

theorem subset_justify (h : c ∈ body) :
    c ∈ justify opts pad len body := by
  unfold justify
  split_ifs
  · exact mem_append_left _ h
  · exact mem_append_right _ h

theorem printfItoc_ne_minus {uppercase : Bool} {d : Nat} (hd : d < 10) : printfItoc uppercase d ≠ 45 := by
  rw [printfItoc, if_pos hd]
  revert d
  decide

theorem lltoaDigits_no_minus (hr : opts.radix = 10) (hnum : num < 2^64) : 45 ∉ lltoaDigits opts num := by
  unfold lltoaDigits
  split_ifs with hzero
  · decide
  rw [lltoaRounds_eq (by omega) 64 0 num hnum, hr]
  rintro hmem
  obtain ⟨d, hd, heq⟩ := mem_map.mp hmem
  have hdigit : d ∈ Nat.digits 10 num := by
    split_ifs at hd
    · exact mem_of_mem_take hd
    · exact hd
  exact printfItoc_ne_minus (Nat.digits_lt_base (by decide) hdigit) heq

theorem printfLltoa_no_minus (hr : opts.radix = 10) (hnum : num < 2^64) : 45 ∉ printfLltoa opts false num := by
  have hzeros : 45 ∉ lltoaZeros opts (lltoaDigits opts num).length := by
    unfold lltoaZeros
    split_ifs
    · intro h
      exact absurd (eq_of_mem_replicate h) (by decide)
    · simp
  have hradix : 45 ∉ lltoaRadix opts := by simp [lltoaRadix, hr]
  have hsign : 45 ∉ lltoaSign opts false := by
    unfold lltoaSign
    by_cases hs : opts.sign = true <;> by_cases hp : opts.space = true <;> simp [hs, hp]
  simp only [printfLltoa, mem_append, not_or]
  exact ⟨⟨⟨⟨lltoaDigits_no_minus hr hnum, hzeros⟩, hradix⟩, hsign⟩, by decide⟩

theorem handleIntSpecifier_chars {hasSignBit : Bool} (hnum : num < 2^64)
    (h : handleIntSpecifier opts hasSignBit num = .chars cs) : ∃ n, n < 2^64 ∧
      ∃ buf, buf = printfLltoa opts (hasSignBit && decide (toI64 num < 0)) n ∧ buf.length ≤ printfNumericBufLen ∧
        cs = justify opts (if opts.zero then 48 else 32) buf.length buf.reverse := by
  refine ⟨if hasSignBit && decide (toI64 num < 0) then toU64 (-(toI64 num)) else num, ?_, _, rfl, ?_⟩
  · split_ifs
    · exact toU64_lt _
    · exact hnum
  unfold handleIntSpecifier at h
  simp only at h
  by_cases hfit : printfNumericBufLen < (printfLltoa opts (hasSignBit && decide (toI64 num < 0))
      (if hasSignBit && decide (toI64 num < 0) then toU64 (-(toI64 num)) else num)).length
  · rw [if_pos hfit] at h
    cases h
  · rw [if_neg hfit] at h
    exact ⟨not_lt.mp hfit, (Effect.chars.inj h).symm⟩

theorem handleIntSpecifier_no_minus (hr : opts.radix = 10) (hnum : num < 2^63)
    (h : handleIntSpecifier opts true num = .chars cs) : 45 ∉ cs := by
  obtain ⟨n, hn, buf, hbuf, -, rfl⟩ := handleIntSpecifier_chars (by omega) h
  have hpos : decide (toI64 num < 0) = false := by
    rw [toI64_of_lt (by omega) (by omega)]
    simp
  rw [hpos] at hbuf
  intro hmem
  rcases mem_justify hmem with hpad | hin
  · split_ifs at hpad
    · cases hpad
    · cases hpad
  · rw [hbuf, mem_reverse] at hin
    exact printfLltoa_no_minus hr hn hin

theorem handleIntSpecifier_minus (hnum : num < 2^64) (hneg : toI64 num < 0)
    (h : handleIntSpecifier opts true num = .chars cs) : 45 ∈ cs := by
  obtain ⟨n, -, buf, rfl, -, rfl⟩ := handleIntSpecifier_chars hnum h
  apply subset_justify
  simp [printfLltoa, lltoaSign, hneg]

theorem mod_of_toI32 (h : toI32 a = n) (hn : 0 ≤ n) : a % 2^32 = n.toNat := by
  unfold toI32 at h
  omega

theorem mod_of_toI64 (h : toI64 a = n) (hn : 0 ≤ n) : a % 2^64 = n.toNat := by
  unfold toI64 at h
  omega

theorem toI64_mod (a : Nat) : toI64 (a % 2^64 : Nat) = toI64 a := by
  unfold toI64
  omega

theorem emits_iff {fmt : List UInt8} {e : Effect} {j : Nat} (h : round E fmt i = .ok (some (e, r, j))) :
    Emits E fmt i cs ↔ e = .chars cs := by
  unfold Emits
  rw [h]
  constructor
  · rintro ⟨_, _, heq⟩
    cases heq
    rfl
  · rintro rfl
    exact ⟨r, j, rfl⟩

theorem parseLength_small {m : List UInt8} (hm : m = [] ∨ m = [104] ∨ m = [104, 104]) (opts : Options) : ∃ len,
    parseLength (m ++ 100 :: r) opts = some ({ opts with len := len }, 100 :: r) ∧
      ∀ E j, readNumber E len j = E.args j % 2^32 := by
  rcases hm with rfl | rfl | rfl
  · exact ⟨.int, rfl, fun _ _ => rfl⟩
  · exact ⟨.shortInt, rfl, fun _ _ => rfl⟩
  · exact ⟨.char, rfl, fun _ _ => rfl⟩

theorem signed_widths_agree_iff {t₁ t₂ m r₁ r₂ : List UInt8} {n : Int} (hm : m = [] ∨ m = [104] ∨ m = [104, 104])
    (h₁ : parseOptions t₁ = some (opts, m ++ 100 :: r₁)) (h₂ : parseOptions t₂ = some (opts, 108 :: 100 :: r₂))
    (hargs : ∀ j, j < (finalOptions E₁ opts 100 i).2 → E₁.args j = E₂.args j)
    (hn₁ : toI32 (E₁.args (finalOptions E₁ opts 100 i).2) = n)
    (hn₂ : toI64 (E₂.args (finalOptions E₁ opts 100 i).2) = n) :
    (∃ cs, Emits E₁ (37 :: t₁) i cs ∧ Emits E₂ (37 :: t₂) i cs) ↔
      0 ≤ n ∧ numeralLen (finalOptions E₁ opts 100 i).1 false n.toNat ≤ 50 := by
  have hvaried : finalOptions E₁ opts 100 i = finalOptions E₂ opts 100 i := readVaried_congr hargs
  obtain ⟨len, hlen, hread⟩ := parseLength_small (r := r₁) hm opts
  have hround₁ := round_signed h₁ hlen E₁ i
  have hlong : parseLength (108 :: 100 :: r₂) opts = some ({ opts with len := .longInt }, 100 :: r₂) := rfl
  have hround₂ := round_signed h₂ hlong E₂ i
  rw [hread] at hround₁
  rw [← hvaried] at hround₂
  have hradix : (finalOptions E₁ opts 100 i).1.radix = 10 := finalOptions_radix E₁ opts 100 i
  generalize finalOptions E₁ opts 100 i = o at hround₁ hround₂ hradix hn₁ hn₂ ⊢
  have hsmall : E₁.args o.2 % 2^32 < 2^63 := by omega
  have hread₂ : readNumber E₂ .longInt o.2 = E₂.args o.2 % 2^64 := rfl
  rw [hread₂] at hround₂
  simp only [emits_iff hround₁, emits_iff hround₂]
  constructor
  · rintro ⟨cs, hcs₁, hcs₂⟩
    have hnonneg : 0 ≤ n := by
      by_contra hneg
      have hset : toI64 (E₂.args o.2 % 2^64 : Nat) < 0 := by
        rw [toI64_mod, hn₂]
        exact Int.not_le.mp hneg
      exact handleIntSpecifier_no_minus hradix hsmall hcs₁ (handleIntSpecifier_minus (Nat.mod_lt _ (by decide)) hset hcs₂)
    have hvalue := mod_of_toI32 hn₁ hnonneg
    rw [hvalue] at hcs₁ hsmall
    refine ⟨hnonneg, ?_⟩
    rw [handleIntSpecifier_pos o.1 hsmall, printfLltoa_length (by simp [hradix]) (by omega)] at hcs₁
    by_contra hover
    have hsmash : printfNumericBufLen < numeralLen o.1 false n.toNat := not_le.mp hover
    rw [if_pos hsmash] at hcs₁
    cases hcs₁
  · rintro ⟨hnonneg, hfit⟩
    have hvalue := mod_of_toI32 hn₁ hnonneg
    have hroom : ¬ printfNumericBufLen < numeralLen o.1 false n.toNat := not_lt.mpr hfit
    rw [hvalue] at hsmall
    rw [hvalue, mod_of_toI64 hn₂ hnonneg, handleIntSpecifier_pos o.1 hsmall,
      printfLltoa_length (by simp [hradix]) (by omega), if_neg hroom]
    exact ⟨_, rfl, rfl⟩

theorem signed_widths_agree_iff_seven : ∃ cs, Emits (oneArg 7) [37, 53, 100, 0] 0 cs ∧
    Emits (oneArg 7) [37, 53, 108, 100, 0] 0 cs := by
  have hint : parseOptions [53, 100, 0] = some ({ widthSet := true, width := 5 }, [] ++ 100 :: [0]) := by
    decide +kernel
  have hlong : parseOptions [53, 108, 100, 0] = some ({ widthSet := true, width := 5 }, 108 :: 100 :: [0]) := by
    decide +kernel
  refine (signed_widths_agree_iff (n := 7) (.inl rfl) hint hlong (fun _ _ => rfl) ?_ ?_).mpr ⟨by decide, ?_⟩
  · decide +kernel
  · decide +kernel
  · decide +kernel

/-- `%d` of -1 prints 4294967295, `%ld` prints -1; each number comes with its terminator. -/
theorem signed_widths_differ :
    Emits (oneArg (2^32 - 1)) [37, 100, 0] 0 [0, 52, 50, 57, 52, 57, 54, 55, 50, 57, 53] ∧
    Emits (oneArg (2^64 - 1)) [37, 108, 100, 0] 0 [0, 45, 49] ∧
    ¬ ∃ cs, Emits (oneArg (2^32 - 1)) [37, 100, 0] 0 cs ∧ Emits (oneArg (2^64 - 1)) [37, 108, 100, 0] 0 cs := by
  have hint : round (oneArg (2^32 - 1)) [37, 100, 0] 0 =
      .ok (some (.chars [0, 52, 50, 57, 52, 57, 54, 55, 50, 57, 53], [0], 1)) := by
    decide +kernel
  have hlong : round (oneArg (2^64 - 1)) [37, 108, 100, 0] 0 = .ok (some (.chars [0, 45, 49], [0], 1)) := by
    decide +kernel
  refine ⟨(emits_iff hint).mpr rfl, (emits_iff hlong).mpr rfl, ?_⟩
  rintro ⟨cs, h₁, h₂⟩
  exact absurd (((emits_iff hint).mp h₁).trans ((emits_iff hlong).mp h₂).symm) (by decide)

def lldFormat : List UInt8 := [37, 108, 108, 100, 0]

def PrintsBack (n : Int) (buf : Nat) (m : Memory) : Prop := ∃ r ctx cs,
  ksprintf (oneArg (toU64 n)) buf lldFormat m = .ok (r, ctx) ∧ ctx.smashed = false ∧
    (∀ c ∈ cs, c ≠ 0) ∧ slice ctx.mem buf (cs.length + 1) = cs ++ [0] ∧
    (∀ rest, strtoll (cs ++ 0 :: rest) 10 = some (n, 0 :: rest)) ∧ r = cs.length

theorem run_lld (n : Nat) : run (oneArg n) lldFormat =
    .ok [handleIntSpecifier { widthSet := true, radix := 10 } true (n % 2^64)] := by
  have hopts : parseOptions [108, 108, 100, 0] = some ({ widthSet := true }, [108, 108, 100, 0]) := by
    decide +kernel
  have hlen : parseLength [108, 108, 100, 0] { widthSet := true } =
      some ({ widthSet := true, len := .longLongInt }, 100 :: [0]) := rfl
  have hround := round_signed hopts hlen (oneArg n) 0
  simp only [run, lldFormat, length_cons, length_nil, effects, hround]
  rfl

theorem digitCount_pos (hset : opts.precisionSet = false) (num : Nat) : 0 < digitCount opts num := by
  unfold digitCount
  by_cases hnum : num = 0
  · rw [if_pos hnum]
    exact Nat.one_pos
  · rw [if_neg hnum, hset, if_neg Bool.false_ne_true]
    exact length_pos_iff.mpr (Nat.digits_ne_nil_iff_ne_zero.mpr hnum)

/-- The characters of a numeral come out from the end of the buffer: the terminator is the
first one. -/
theorem handleIntSpecifier_lld (hnum : num < 2^64)
    (h : handleIntSpecifier { widthSet := true, radix := 10 } true num = .chars cs) :
    cs.head? = some 0 ∧ 2 ≤ cs.length ∧ cs.length ≤ 50 := by
  obtain ⟨n, hn, buf, hbuf, hfit, rfl⟩ := handleIntSpecifier_chars hnum h
  have hlen : buf.length = numeralLen { widthSet := true, radix := 10 } (true && decide (toI64 num < 0)) n := by
    rw [hbuf]
    exact printfLltoa_length (by decide) hn _
  have hcount : 0 < digitCount { widthSet := true, radix := 10 } n := digitCount_pos rfl n
  have htwo : 2 ≤ buf.length := by
    rw [hlen]
    unfold numeralLen
    omega
  have hpad : padding { widthSet := true, radix := 10 } buf.length = 0 := by
    unfold padding
    simp
  simp only [justify, hpad, replicate_zero, nil_append, Bool.false_eq_true, if_false, length_reverse]
  refine ⟨?_, htwo, hfit⟩
  rw [hbuf, printfLltoa, reverse_append]
  rfl

theorem empty_of_terminator {m : Memory} (hfirst : m a = 0) (hcs : ∀ c ∈ cs, c ≠ 0)
    (hslice : slice m a (cs.length + 1) = cs ++ [0]) : cs = [] := by
  rcases cs with _ | ⟨c, cs⟩
  · rfl
  · have hc : (slice m a ((c :: cs).length + 1))[0]? = some (m (a + 0)) := getElem?_slice (Nat.succ_pos _)
    rw [hslice, add_zero, hfirst] at hc
    exact absurd (some.inj hc) (hcs c mem_cons_self)

theorem ksprintf_lld_never (n : Int) (buf : Nat) (m : Memory) : ¬ PrintsBack n buf m := by
  rintro ⟨r, ctx, cs, hcall, hsmashed, hcs, hslice, -, hr⟩
  have hrun := run_lld (toU64 n)
  generalize heff : handleIntSpecifier { widthSet := true, radix := 10 } true (toU64 n % 2^64) = e at hrun
  have hcount : Uncounted [e] := by
    intro bad hmem
    rw [mem_singleton.mp hmem |>.symm] at heff
    unfold handleIntSpecifier at heff
    simp only at heff
    split_ifs at heff
  obtain ⟨ctx', hcall', hmem, hsmash⟩ := kvsprintf_eq hrun hcount buf m
  rw [ksprintf, hcall'] at hcall
  cases hcall
  rcases e with text | bad | _
  · obtain ⟨hhead, htwo, hfifty⟩ := handleIntSpecifier_lld (Nat.mod_lt _ (by decide)) heff
    have hprinted : printed [.chars text] = text := by simp [printed, Effect.text]
    rw [hprinted] at hmem hr
    -- the string ends where it starts
    have hfirst : ctx.mem buf = 0 := by
      obtain ⟨text', rfl⟩ : ∃ text', text = 0 :: text' := by
        rcases text with _ | ⟨c, text'⟩
        · cases hhead
        · cases hhead
          exact ⟨text', rfl⟩
      rw [hmem]
      exact write_at (i := 0) (by simp)
    have hempty : cs = [] := empty_of_terminator hfirst hcs hslice
    rw [hempty, toI32_of_lt (by omega) (by omega), length_nil] at hr
    omega
  · exact hcount bad mem_cons_self
  · rw [hsmash] at hsmashed
    simp at hsmashed

/-- The buffer of 7 starts with the terminator, and `strtoll` finds no number in it. -/
theorem ksprintf_lld_seven : ((ksprintf (oneArg (toU64 7)) 0 lldFormat fun _ => 1).toOption.map fun p =>
      (p.1, slice p.2.mem 0 3)) = some (2, [0, 55, 0]) ∧
    strtoll [0, 55, 0] 10 = some (0, [0, 55, 0]) ∧ ¬ PrintsBack 7 0 fun _ => 1 := by
  have hrun : ((ksprintf (oneArg (toU64 7)) 0 lldFormat fun _ => 1).toOption.map fun p =>
      (p.1, slice p.2.mem 0 3)) = some (2, [0, 55, 0]) := by
    decide +kernel
  refine ⟨hrun, by decide +kernel, ?_⟩
  rintro ⟨r, ctx, cs, hcall, -, hcs, hslice, -, hr⟩
  rw [hcall] at hrun
  obtain ⟨htwo, hmem⟩ := Prod.mk.inj (some.inj hrun)
  have hfirst : ctx.mem 0 = 0 := (cons.inj hmem).1
  rw [empty_of_terminator hfirst hcs hslice] at hr
  cases hr.symm.trans htwo

end Comus.Printf
