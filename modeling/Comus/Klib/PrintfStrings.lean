import Comus.Klib.PrintfFormat
import Comus.Klib.PrintfNumbers

/-!
# Strings in formatted output (handle_string_specifier)

A precision is taken for the length of the string, also when the string is shorter, and a
negative one for a length below zero.
-/

namespace Comus.Printf

open Word Bytes Klib Option List

variable {o opts : Options} {cs : List UInt8} {i : Nat}

def leastWidth (opts : Options) : Nat := if opts.widthSet then opts.width.toNat else 0

def shown (opts : Options) (cs : List UInt8) : List UInt8 :=
  if opts.precisionSet then cs.take opts.precision.toNat else cs

def stringText (opts : Options) (cs : List UInt8) : List UInt8 :=
  if opts.left then shown opts cs ++ replicate (leastWidth opts - (shown opts cs).length) 32
  else replicate (leastWidth opts - (shown opts cs).length) 32 ++ shown opts cs

def StringFits (opts : Options) (len : Nat) : Prop :=
  if opts.precisionSet then
    0 ≤ opts.precision ∧ opts.precision ≤ len ∨
    opts.precision < 0 ∧ (opts.widthSet = false ∨ opts.width ≤ opts.precision ∨
      opts.width = 0 ∧ opts.precision = -2^31)
  else len < 2^31

theorem padding_of_nonneg (ho : InRange o) (n : Nat) : padding o n = leastWidth o - n := by
  have hwidth := ho.width
  unfold padding leastWidth
  by_cases hset : o.widthSet = true
  · by_cases hlt : (n : Int) < o.width
    · rw [if_pos ⟨hset, hlt⟩, if_pos hset, toI32_of_lt (by omega) (by omega)]
      omega
    · rw [if_neg fun h => hlt h.2, if_pos hset]
      omega
  · rw [if_neg fun h => hset h.1, if_neg hset, Nat.zero_sub]

/-- A length below zero makes the padding too long, unless the difference wraps. -/
theorem padding_of_neg_iff (ho : InRange o) (hneg : o.precision < 0) : padding o o.precision = leastWidth o ↔
    o.widthSet = false ∨ o.width ≤ o.precision ∨ o.width = 0 ∧ o.precision = -2^31 := by
  obtain ⟨⟨hw, hw'⟩, hp, hp'⟩ := ho
  unfold padding leastWidth
  by_cases hwidth : o.widthSet = true
  · have hfalse : ¬ o.widthSet = false := by simp [hwidth]
    rw [if_pos hwidth, eq_false hfalse, false_or]
    by_cases hlt : o.precision < o.width
    · rw [if_pos ⟨hwidth, hlt⟩]
      rcases Int.lt_or_le (o.width - o.precision) (2^31) with hsmall | hlarge
      · rw [toI32_of_lt (by omega) hsmall]
        omega
      · have hwrap : toI32 (o.width - o.precision) < 0 := by
          unfold toI32
          omega
        omega
    · rw [if_neg fun h => hlt h.2]
      omega
  · rw [if_neg hwidth, if_neg fun h => hwidth h.1]
    simp [hwidth]

theorem justify_shown (ho : InRange o) : justify o 32 (shown o cs).length (shown o cs) = stringText o cs := by
  rw [justify, stringText, padding_of_nonneg ho]

theorem padding_lt (ho : InRange o) {z : Int} (hz : z < 2^31) : z.toNat + padding o z < 2^31 := by
  have hwidth := ho.width
  rcases Int.lt_or_le z 0 with hneg | hpos
  · unfold padding
    have hrange := (toI32_range (o.width - z)).2
    split_ifs
    · omega
    · omega
  · obtain ⟨n, rfl⟩ := Int.eq_ofNat_of_zero_le hpos
    rw [padding_of_nonneg ho]
    unfold leastWidth
    split_ifs
    · omega
    · omega

theorem justify_length (opts : Options) (pad : UInt8) (z : Int) (text : List UInt8) :
    (justify opts pad z text).length = text.length + padding opts z := by
  unfold justify
  split_ifs
  · rw [length_append, length_replicate]
  · rw [length_append, length_replicate, add_comm]

theorem shown_length_le (opts : Options) (cs : List UInt8) : (shown opts cs).length ≤ (stringText opts cs).length := by
  unfold stringText
  split_ifs
  · rw [length_append]
    omega
  · rw [length_append]
    omega

theorem zero_not_mem_stringText (hcs : ∀ c ∈ cs, c ≠ 0) (opts : Options) : 0 ∉ stringText opts cs := by
  have hshown : 0 ∉ shown opts cs := by
    unfold shown
    split_ifs
    · exact fun h => hcs 0 (mem_of_mem_take h) rfl
    · exact fun h => hcs 0 h rfl
  have hblanks : ∀ n, 0 ∉ replicate n (32 : UInt8) := fun n h => absurd (eq_of_mem_replicate h) (by decide)
  unfold stringText
  split_ifs
  · exact fun h => (mem_append.mp h).elim hshown (hblanks _)
  · exact fun h => (mem_append.mp h).elim (hblanks _) hshown

theorem strlen_string (hcs : ∀ c ∈ cs, c ≠ 0) (rest : List UInt8) : strlen (cs ++ 0 :: rest) = some cs.length := by
  induction cs with
  | nil => rfl
  | cons c cs ih =>
    rw [cons_append, strlen, if_neg (hcs c mem_cons_self),
      ih fun d hd => hcs d (mem_cons_of_mem _ hd)]
    rfl

theorem string_without_precision (ho : InRange o) (hcs : ∀ c ∈ cs, c ≠ 0) (hset : ¬ o.precisionSet = true) :
    (∀ rest, handleStringSpecifier o (cs ++ 0 :: rest) = some (stringText o cs)) ↔ cs.length < 2^31 := by
  have hshown : shown o cs = cs := if_neg hset
  constructor
  · intro h
    have hone := h []
    rw [handleStringSpecifier_strlen hset (strlen_string hcs [])] at hone
    split_ifs at hone with hfit
    have hlen := congrArg length (some.inj hone)
    rw [justify_length, length_take, min_eq_left hfit] at hlen
    have hleast := shown_length_le o cs
    have hmost := padding_lt ho (toI32_range cs.length).2
    rw [hshown] at hleast
    omega
  · intro hlen rest
    rw [handleStringSpecifier_strlen hset (strlen_string hcs rest), toI32_of_lt (by omega) (by omega),
      Int.toNat_natCast, if_pos (by simp), take_left, ← justify_shown ho, hshown]

theorem string_negative_precision (ho : InRange o) (hset : o.precisionSet = true) (hneg : o.precision < 0) :
    (∀ rest, handleStringSpecifier o (cs ++ 0 :: rest) = some (stringText o cs)) ↔
      o.widthSet = false ∨ o.width ≤ o.precision ∨ o.width = 0 ∧ o.precision = -2^31 := by
  have hzero : o.precision.toNat = 0 := Int.toNat_of_nonpos hneg.le
  have hshown : shown o cs = [] := by
    rw [shown, if_pos hset, hzero, take_zero]
  have hall : ∀ rest, handleStringSpecifier o (cs ++ 0 :: rest) = some (justify o 32 o.precision []) := by
    intro rest
    rw [handleStringSpecifier_precision hset, hzero, if_pos (Nat.zero_le _), take_zero]
  have hpadding : justify o 32 o.precision [] = stringText o cs ↔ padding o o.precision = leastWidth o := by
    constructor
    · intro h
      have hlen := congrArg length h
      rw [← justify_shown ho, justify_length, justify_length, hshown, padding_of_nonneg ho] at hlen
      simpa using hlen
    · intro h
      rw [← justify_shown ho, hshown, justify, justify, h, padding_of_nonneg ho, length_nil, Nat.sub_zero]
  simp only [hall, some.injEq, forall_const, hpadding, padding_of_neg_iff ho hneg]

theorem string_precision (ho : InRange o) (hcs : ∀ c ∈ cs, c ≠ 0) (hset : o.precisionSet = true)
    (hpos : 0 ≤ o.precision) :
    (∀ rest, handleStringSpecifier o (cs ++ 0 :: rest) = some (stringText o cs)) ↔ o.precision ≤ cs.length := by
  constructor
  · intro h
    by_contra hlong
    have hone := h []
    rw [handleStringSpecifier_precision hset] at hone
    split_ifs at hone with hfit
    -- the terminator is printed
    have hall : (cs ++ [0]).take o.precision.toNat = cs ++ [0] := take_of_length_le (by simp; omega)
    rw [hall] at hone
    apply zero_not_mem_stringText hcs o
    rw [← some.inj hone]
    exact subset_justify (by simp)
  · intro hle rest
    have hshown : shown o cs = cs.take o.precision.toNat := if_pos hset
    have hlen : ((shown o cs).length : Int) = o.precision := by
      rw [hshown, length_take]
      omega
    have htake : (cs ++ 0 :: rest).take o.precision.toNat = shown o cs := by
      rw [hshown, take_append_of_le_length (by omega)]
    rw [handleStringSpecifier_precision hset, if_pos (by simp; omega), htake, ← justify_shown ho, hlen]

theorem handleStringSpecifier_iff (ho : InRange o) (hcs : ∀ c ∈ cs, c ≠ 0) :
    (∀ rest, handleStringSpecifier o (cs ++ 0 :: rest) = some (stringText o cs)) ↔ StringFits o cs.length := by
  unfold StringFits
  by_cases hset : o.precisionSet = true
  · rw [if_pos hset]
    rcases Int.lt_or_le o.precision 0 with hneg | hpos
    · rw [string_negative_precision ho hset hneg]
      simp [hneg, hneg.not_ge]
    · rw [string_precision ho hcs hset hpos]
      simp [hpos, hpos.not_gt]
  · rw [if_neg hset, string_without_precision ho hcs hset]

def withString (args : Nat → Nat) (cs rest : List UInt8) : Env := ⟨args, fun _ => cs ++ 0 :: rest⟩

theorem emits_string_iff {E : Env} {t r text : List UInt8} (hdir : parseDirective t = some (opts, 115, r)) :
    Emits E (37 :: t) i text ↔ handleStringSpecifier (finalOptions E opts 115 i).1
      (E.string (E.args (finalOptions E opts 115 i).2 % 2^64)) = some text := by
  have hspec : Specifier.of 115 = .string := by decide
  rcases hstring : handleStringSpecifier (finalOptions E opts 115 i).1
      (E.string (E.args (finalOptions E opts 115 i).2 % 2^64)) with _ | text'
  · have hround : round E (37 :: t) i = .error .string := by
      rw [round, if_neg (by decide), if_neg (by decide), hdir]
      simp only [direct, handle, hspec, hstring, Option.map_none]
    simp [Emits, hround]
  · have hround : round E (37 :: t) i =
        .ok (some (.chars text', r, (finalOptions E opts 115 i).2 + 1)) := by
      rw [round, if_neg (by decide), if_neg (by decide), hdir]
      simp only [direct, handle, hspec, hstring, Option.map_some]
    rw [emits_iff hround, Effect.chars.injEq, some.injEq]

theorem string_directive_iff {args : Nat → Nat} {t r : List UInt8} (hdir : parseDirective t = some (opts, 115, r))
    (hcs : ∀ c ∈ cs, c ≠ 0) (hptr : args (finalOptions (withString args cs []) opts 115 i).2 % 2^64 ≠ 0) :
    (∀ rest, Emits (withString args cs rest) (37 :: t) i
      (stringText (finalOptions (withString args cs []) opts 115 i).1 cs)) ↔
      StringFits (finalOptions (withString args cs []) opts 115 i).1 cs.length := by
  have hrange := finalOptions_inRange (parseDirective_inRange hdir) (withString args cs []) 115 i
  rw [← handleStringSpecifier_iff hrange hcs]
  apply forall_congr'
  intro rest
  rw [emits_string_iff hdir]
  have hsame : finalOptions (withString args cs rest) opts 115 i = finalOptions (withString args cs []) opts 115 i := rfl
  have hstring : (withString args cs rest).string
      ((withString args cs rest).args (finalOptions (withString args cs []) opts 115 i).2 % 2^64) = cs ++ 0 :: rest :=
    if_neg hptr
  rw [hsame, hstring]

/-- `%5.1s` of `ab`. -/
theorem string_directive_iff_short :
    Emits (withString (fun _ => 1) [97, 98] []) [37, 53, 46, 49, 115, 0] 0 [32, 32, 32, 32, 97] := by
  have hdir : parseDirective [53, 46, 49, 115, 0] =
      some ({ widthSet := true, width := 5, precisionSet := true, precision := 1, len := .int }, 115, [0]) := by
    decide +kernel
  exact (string_directive_iff hdir (by simp) (by decide)).mpr (.inl (by decide)) []

/-- `%.5s` of `ab`: what follows the string is printed, or the memory ends before. -/
theorem string_directive_overread :
    Emits (withString (fun _ => 1) [97, 98] [120, 121, 122]) [37, 46, 53, 115, 0] 0 [97, 98, 0, 120, 121] ∧
    round (withString (fun _ => 1) [97, 98] []) [37, 46, 53, 115, 0] 0 = .error .string := by
  constructor
  · exact ⟨[0], 1, by decide +kernel⟩
  · decide +kernel

end Comus.Printf
