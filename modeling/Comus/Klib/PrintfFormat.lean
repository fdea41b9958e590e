import Comus.Klib.Numerals
import Comus.Klib.PrintfOutput

/-!
# The format cursor (do_printf)

The parsers never pass the terminator of the format. The fetch of the specifier does, when
the string ends inside a directive.
-/

namespace Comus.Printf

open Word Bytes Klib Option List
open Fs (isspace)

variable {α β : Type} {cs t r : List UInt8}
variable {c letter spec : UInt8} {n : Nat}

structure InRange (opts : Options) : Prop where
  width : -2^31 ≤ opts.width ∧ opts.width < 2^31
  precision : -2^31 ≤ opts.precision ∧ opts.precision < 2^31

variable {opts o : Options} {s : List UInt8}

theorem parseFlag_inRange (hopts : InRange opts) (h : parseFlag c opts = some o) : InRange o := by
  unfold parseFlag at h
  split_ifs at h <;> cases h <;> exact ⟨hopts.width, hopts.precision⟩

theorem parseFlags_inRange (hopts : InRange opts) (h : parseFlags s opts = some (o, r)) : InRange o := by
  induction s generalizing opts with
  | nil => cases h
  | cons c s ih =>
    rw [parseFlags] at h
    rcases hflag : parseFlag c opts with _ | opts'
    · rw [hflag] at h
      cases h
      exact hopts
    · rw [hflag] at h
      exact ih (parseFlag_inRange hopts hflag) h

theorem parseField_inRange {v : Int} (h : parseField s = some (some v, r)) : -2^31 ≤ v ∧ v < 2^31 := by
  rcases s with _ | ⟨c, s⟩
  · cases h
  rw [parseField] at h
  split_ifs at h
  · cases h
  · obtain ⟨x, -, hx⟩ := map_eq_some_iff.mp h
    cases hx
    exact toI32_range _

theorem parseWidth_inRange (hopts : InRange opts) (h : parseWidth s opts = some (o, r)) : InRange o := by
  obtain ⟨⟨v, u⟩, hfield, hv⟩ := map_eq_some_iff.mp h
  rcases v with _ | width
  · cases hv
    exact ⟨hopts.width, hopts.precision⟩
  · cases hv
    exact ⟨parseField_inRange hfield, hopts.precision⟩

theorem parsePrecision_inRange (hopts : InRange opts) (h : parsePrecision s opts = some (o, r)) : InRange o := by
  rcases s with _ | ⟨c, s⟩
  · cases h
  rw [parsePrecision] at h
  split_ifs at h
  · cases h
    exact hopts
  obtain ⟨⟨v, u⟩, hfield, hv⟩ := map_eq_some_iff.mp h
  rcases v with _ | precision
  · cases hv
    exact ⟨hopts.width, hopts.precision⟩
  · cases hv
    exact ⟨hopts.width, parseField_inRange hfield⟩

theorem parseDouble_inRange {one two : PrintfLen} (hopts : InRange opts)
    (h : parseDouble letter one two s opts = some (o, r)) : InRange o := by
  rcases s with _ | ⟨c, s⟩
  · cases h
  rw [parseDouble] at h
  split_ifs at h <;> cases h <;> exact ⟨hopts.width, hopts.precision⟩

theorem parseLength_inRange (hopts : InRange opts) (h : parseLength s opts = some (o, r)) : InRange o := by
  rcases s with _ | ⟨c, s⟩
  · cases h
  rw [parseLength] at h
  split_ifs at h
  · exact parseDouble_inRange hopts h
  · exact parseDouble_inRange hopts h
  · cases h
    exact ⟨hopts.width, hopts.precision⟩
  · cases h
    exact ⟨hopts.width, hopts.precision⟩

theorem parseDirective_inRange (h : parseDirective s = some (o, spec, r)) : InRange o := by
  unfold parseDirective parseOptions at h
  simp only [bind_eq_bind, bind_eq_some_iff] at h
  obtain ⟨⟨opts₃, s₃⟩, ⟨⟨opts₁, s₁⟩, hflags, ⟨opts₂, s₂⟩, hwidth, hprecision⟩, ⟨opts₄, s₄⟩, hlength, hspec⟩ := h
  have hstart : InRange {} := ⟨by decide, by decide⟩
  have hend := parseLength_inRange (parsePrecision_inRange (parseWidth_inRange (parseFlags_inRange hstart hflags)
    hwidth) hprecision) hlength
  rcases s₄ with _ | ⟨c, s₄⟩
  · cases hspec
  · cases hspec
    exact hend

theorem readVaried_inRange (hopts : InRange opts) (E : Env) (i : Nat) : InRange (readVaried E opts i).1 := by
  unfold readVaried
  by_cases hwidth : opts.widthVaries = true <;> by_cases hprec : opts.precisionVaries = true <;>
    simp only [hwidth, hprec, if_true, if_false, Bool.false_eq_true]
  · exact ⟨toI32_range _, toI32_range _⟩
  · exact ⟨toI32_range _, hopts.precision⟩
  · exact ⟨hopts.width, toI32_range _⟩
  · exact hopts

theorem finalOptions_inRange (hopts : InRange opts) (E : Env) (spec : UInt8) (i : Nat) :
    InRange (finalOptions E opts spec i).1 := by
  apply readVaried_inRange
  unfold getCase
  split_ifs
  · exact ⟨hopts.width, hopts.precision⟩
  · exact ⟨hopts.width, hopts.precision⟩

/-- On a string the parser leaves what `past` says, whatever stands behind the terminator. -/
def Parses (parse : List UInt8 → Option (α × List UInt8)) (past : List UInt8 → List UInt8) : Prop :=
  ∀ cs, ∃ a, ∀ rest, parse (cs ++ 0 :: rest) = some (a, past cs ++ 0 :: rest)

theorem Parses.bind {parse : List UInt8 → Option (α × List UInt8)} {next : α → List UInt8 → Option (β × List UInt8)}
    {past past' : List UInt8 → List UInt8} (h : Parses parse past) (hnext : ∀ a, Parses (next a) past') :
    Parses (fun s => (parse s).bind fun r => next r.1 r.2) fun cs => past' (past cs) := by
  intro cs
  obtain ⟨a, ha⟩ := h cs
  obtain ⟨b, hb⟩ := hnext a (past cs)
  refine ⟨b, fun rest => ?_⟩
  dsimp only
  rw [ha]
  exact hb rest

def pastNumber (cs : List UInt8) : List UInt8 :=
  if (digitsAt 10 (body true cs)).isEmpty then cs else (body true cs).dropWhile fun c => decide (IsDigit 10 c)

theorem strtol_parses : Parses (fun s => strtol s 10) pastNumber := by
  intro cs
  refine ⟨if isNegative true cs then toI64 (-toI64 (valueOf 10 (digitsAt 10 (body true cs))))
    else toI64 (valueOf 10 (digitsAt 10 (body true cs))), fun rest => ?_⟩
  have hnumber : takeNumber toI64 10 (body true cs ++ 0 :: rest) =
      takeDigits toI64 10 (body true cs ++ 0 :: rest) 0 false := rfl
  obtain ⟨t, ht, htake⟩ := takeDigits_takes wraps_toI64 10 (body true cs) rest
  have hrest : t = (body true cs).dropWhile fun c => decide (IsDigit 10 c) :=
    append_cancel_left (ht.symm.trans (digitsAt_append 10 (body true cs)))
  have hconvert : strtol (cs ++ 0 :: rest) 10 = convert true toI64 (cs ++ 0 :: rest) 10 := rfl
  dsimp only
  rw [hconvert, convert_eq, hnumber, htake, hrest, map_some, pastNumber]
  cases (digitsAt 10 (body true cs)).isEmpty <;> rfl

def pastField : List UInt8 → List UInt8
  | [] => pastNumber []
  | c :: cs => if c = 42 then cs else pastNumber (c :: cs)

theorem parseField_parses : Parses parseField pastField := by
  intro cs
  rcases cs with _ | ⟨c, cs⟩
  · obtain ⟨v, hv⟩ := strtol_parses []
    refine ⟨some (toI32 v), fun rest => ?_⟩
    simp only [nil_append] at hv ⊢
    rw [parseField, if_neg (by decide), hv]
    rfl
  · by_cases hc : c = 42
    · refine ⟨none, fun rest => ?_⟩
      rw [cons_append, parseField, pastField, if_pos hc, if_pos hc]
    · obtain ⟨v, hv⟩ := strtol_parses (c :: cs)
      refine ⟨some (toI32 v), fun rest => ?_⟩
      simp only [cons_append] at hv ⊢
      rw [parseField, pastField, if_neg hc, if_neg hc, hv]
      rfl

def isFlag (c : UInt8) : Bool := c == 45 || c == 43 || c == 32 || c == 35 || c == 48

theorem parseFlag_isFlag (c : UInt8) (opts : Options) : (parseFlag c opts).isSome = isFlag c := by
  unfold parseFlag isFlag
  split_ifs with h₁ h₂ h₃ h₄ h₅ <;> simp_all

theorem parseFlags_parses (opts : Options) : Parses (fun s => parseFlags s opts) fun cs => cs.dropWhile isFlag := by
  intro cs
  induction cs generalizing opts with
  | nil => exact ⟨opts, fun rest => rfl⟩
  | cons c cs ih =>
    have hflag := parseFlag_isFlag c opts
    rcases hparse : parseFlag c opts with _ | opts'
    · rw [hparse] at hflag
      refine ⟨opts, fun rest => ?_⟩
      dsimp only
      rw [dropWhile_cons_of_neg (by simp [← hflag]), cons_append, parseFlags, hparse]
    · rw [hparse] at hflag
      obtain ⟨o, ho⟩ := ih opts'
      refine ⟨o, fun rest => ?_⟩
      dsimp only at ho ⊢
      rw [dropWhile_cons_of_pos (by simp [← hflag]), cons_append, parseFlags, hparse, ← ho rest]

theorem parseWidth_parses (opts : Options) : Parses (fun s => parseWidth s opts) pastField := by
  intro cs
  obtain ⟨v, hv⟩ := parseField_parses cs
  rcases v with _ | width
  · refine ⟨{ opts with widthVaries := true }, fun rest => ?_⟩
    simp [parseWidth, hv]
  · refine ⟨{ opts with widthSet := true, width := width }, fun rest => ?_⟩
    simp [parseWidth, hv]

def pastPrecision : List UInt8 → List UInt8
  | [] => []
  | c :: cs => if c = 46 then pastField cs else c :: cs

theorem parsePrecision_parses (opts : Options) : Parses (fun s => parsePrecision s opts) pastPrecision := by
  intro cs
  rcases cs with _ | ⟨c, cs⟩
  · exact ⟨opts, fun rest => rfl⟩
  by_cases hc : c = 46
  · obtain ⟨v, hv⟩ := parseField_parses cs
    rcases v with _ | precision
    · refine ⟨{ opts with precisionVaries := true }, fun rest => ?_⟩
      simp [parsePrecision, pastPrecision, hc, hv]
    · refine ⟨{ opts with precisionSet := true, precision := precision }, fun rest => ?_⟩
      simp [parsePrecision, pastPrecision, hc, hv]
  · refine ⟨opts, fun rest => ?_⟩
    simp [parsePrecision, pastPrecision, hc]

def pastDouble (letter : UInt8) : List UInt8 → List UInt8
  | [] => []
  | c :: cs => if c = letter then cs else c :: cs

theorem parseDouble_parses (hletter : letter ≠ 0) (one two : PrintfLen) (opts : Options) :
    Parses (fun s => parseDouble letter one two s opts) (pastDouble letter) := by
  intro cs
  rcases cs with _ | ⟨c, cs⟩
  · refine ⟨{ opts with len := one }, fun rest => ?_⟩
    simp [parseDouble, pastDouble, hletter.symm]
  · by_cases hc : c = letter
    · refine ⟨{ opts with len := two }, fun rest => ?_⟩
      simp [parseDouble, pastDouble, hc]
    · refine ⟨{ opts with len := one }, fun rest => ?_⟩
      simp [parseDouble, pastDouble, hc]

def pastLength : List UInt8 → List UInt8
  | [] => []
  | c :: cs => if c = 104 ∨ c = 108 then pastDouble c cs else if c = 122 then cs else c :: cs

theorem parseLength_parses (opts : Options) : Parses (fun s => parseLength s opts) pastLength := by
  intro cs
  rcases cs with _ | ⟨c, cs⟩
  · exact ⟨{ opts with len := .int }, fun rest => rfl⟩
  by_cases hh : c = 104
  · subst hh
    exact parseDouble_parses (by decide) .shortInt .char opts cs
  by_cases hl : c = 108
  · subst hl
    exact parseDouble_parses (by decide) .longInt .longLongInt opts cs
  by_cases hz : c = 122
  · refine ⟨{ opts with len := .sizeT }, fun rest => ?_⟩
    simp [parseLength, pastLength, hz]
  · refine ⟨{ opts with len := .int }, fun rest => ?_⟩
    simp [parseLength, pastLength, hh, hl, hz]

def pastOptions (cs : List UInt8) : List UInt8 :=
  pastLength (pastPrecision (pastField (cs.dropWhile isFlag)))

theorem parseOptions_parses : Parses parseOptions fun cs => pastPrecision (pastField (cs.dropWhile isFlag)) :=
  (parseFlags_parses {}).bind fun opts => (parseWidth_parses opts).bind parsePrecision_parses

theorem parseOptions_parseLength_parses :
    Parses (fun s => (parseOptions s).bind fun r => parseLength r.2 r.1) pastOptions :=
  parseOptions_parses.bind parseLength_parses

theorem parseDirective_eq (s : List UInt8) : parseDirective s =
    ((parseOptions s).bind fun r => parseLength r.2 r.1).bind fun r =>
      match r.2 with
      | [] => none
      | spec :: fmt => some (r.1, spec, fmt) := by
  unfold parseDirective
  rcases parseOptions s with _ | ⟨opts, u⟩
  · rfl
  · rfl

theorem parseDirective_inside (h : pastOptions t = spec :: r) : ∃ opts, ∀ rest,
    parseDirective (t ++ 0 :: rest) = some (opts, spec, r ++ 0 :: rest) := by
  obtain ⟨opts, hopts⟩ := parseOptions_parseLength_parses t
  refine ⟨opts, fun rest => ?_⟩
  dsimp only at hopts
  rw [parseDirective_eq, hopts, h]
  rfl

/-- The string ends before the specifier: the terminator is taken for it. -/
theorem parseDirective_outside (h : pastOptions t = []) : ∃ opts, ∀ rest,
    parseDirective (t ++ 0 :: rest) = some (opts, 0, rest) := by
  obtain ⟨opts, hopts⟩ := parseOptions_parseLength_parses t
  refine ⟨opts, fun rest => ?_⟩
  dsimp only at hopts
  rw [parseDirective_eq, hopts, h]
  rfl

theorem body_suffix (cs : List UInt8) : body true cs <:+ cs := by
  have hsign : ∀ u : List UInt8, (takeSign u).2 <:+ u := by
    intro u
    rcases u with _ | ⟨c, u⟩
    · exact suffix_rfl
    · rw [takeSign]
      split_ifs
      · exact suffix_cons c u
      · exact suffix_cons c u
      · exact suffix_rfl
  exact (hsign _).trans (dropWhile_suffix _)

theorem pastNumber_suffix (cs : List UInt8) : pastNumber cs <:+ cs := by
  unfold pastNumber
  split_ifs
  · exact suffix_rfl
  · exact (dropWhile_suffix _).trans (body_suffix cs)

theorem pastField_suffix (cs : List UInt8) : pastField cs <:+ cs := by
  rcases cs with _ | ⟨c, cs⟩
  · exact pastNumber_suffix []
  · rw [pastField]
    split_ifs
    · exact suffix_cons c cs
    · exact pastNumber_suffix _

theorem pastPrecision_suffix (cs : List UInt8) : pastPrecision cs <:+ cs := by
  rcases cs with _ | ⟨c, cs⟩
  · exact suffix_rfl
  · rw [pastPrecision]
    split_ifs
    · exact (pastField_suffix cs).trans (suffix_cons c cs)
    · exact suffix_rfl

theorem pastDouble_suffix (letter : UInt8) (cs : List UInt8) : pastDouble letter cs <:+ cs := by
  rcases cs with _ | ⟨c, cs⟩
  · exact suffix_rfl
  · rw [pastDouble]
    split_ifs
    · exact suffix_cons c cs
    · exact suffix_rfl

theorem pastLength_suffix (cs : List UInt8) : pastLength cs <:+ cs := by
  rcases cs with _ | ⟨c, cs⟩
  · exact suffix_rfl
  · rw [pastLength]
    split_ifs
    · exact (pastDouble_suffix c cs).trans (suffix_cons c cs)
    · exact suffix_cons c cs
    · exact suffix_rfl

theorem pastOptions_suffix (cs : List UInt8) : pastOptions cs <:+ cs :=
  (pastLength_suffix _).trans ((pastPrecision_suffix _).trans ((pastField_suffix _).trans (dropWhile_suffix _)))

/-- The string ends outside of its directives. -/
inductive Complete : List UInt8 → Prop
  | nil : Complete []
  | char {c : UInt8} {cs : List UInt8} (hc : c ≠ 37) (hcs : Complete cs) : Complete (c :: cs)
  | directive {t r : List UInt8} {spec : UInt8} (hspec : pastOptions t = spec :: r) (hr : Complete r) :
    Complete (37 :: t)

theorem round_char (hzero : c ≠ 0) (hc : c ≠ 37) (E : Env) (fmt : List UInt8) (i : Nat) :
    round E (c :: fmt) i = .ok (some (.chars [c], fmt, i)) := by
  rw [round, if_neg hzero, if_pos hc]

theorem round_inside (h : pastOptions t = spec :: r) (E : Env) (i : Nat) :
    ∃ effect : Option (Effect × Nat), (∃ opts source, InRange opts ∧ effect = direct E opts spec source i) ∧ ∀ rest,
      round E (37 :: (t ++ 0 :: rest)) i =
        match effect with
        | none => .error .string
        | some (effect, j) => .ok (some (effect, r ++ 0 :: rest, j)) := by
  obtain ⟨opts, hparse⟩ := parseDirective_inside h
  obtain ⟨p, hp⟩ := pastOptions_suffix t
  rw [h] at hp
  have hsource : ∀ rest, (37 :: (t ++ 0 :: rest)).take ((37 :: (t ++ 0 :: rest)).length - (r ++ 0 :: rest).length) =
      37 :: (p ++ [spec]) := by
    intro rest
    have hsplit : 37 :: (t ++ 0 :: rest) = (37 :: (p ++ [spec])) ++ (r ++ 0 :: rest) := by
      rw [← hp]
      simp
    rw [hsplit, length_append, Nat.add_sub_cancel, take_left]
  refine ⟨direct E opts spec (37 :: (p ++ [spec])) i, ⟨opts, _, parseDirective_inRange (hparse []), rfl⟩, fun rest => ?_⟩
  rw [round, if_neg (by decide), if_neg (by decide), hparse]
  simp only [hsource]
  rcases direct E opts spec (37 :: (p ++ [spec])) i with _ | ⟨effect, j⟩
  · rfl
  · rfl

theorem rounds_complete (hcomplete : Complete cs) (hcs : ∀ c ∈ cs, c ≠ 0) (E : Env) (i : Nat) (ctx : Context) :
    ∃ result, result ≠ .error .format ∧ ∀ fuel rest, cs.length < fuel →
      rounds E fuel (cs ++ 0 :: rest) i ctx = result := by
  induction hcomplete generalizing i ctx with
  | nil =>
    refine ⟨.ok ctx, by simp, fun fuel rest hfuel => ?_⟩
    obtain ⟨k, rfl⟩ := Nat.exists_eq_succ_of_ne_zero (Nat.ne_of_gt hfuel)
    rfl
  | @char c cs hc _ ih =>
    obtain ⟨result, hresult, hrun⟩ := ih (fun d hd => hcs d (mem_cons_of_mem _ hd)) i (ctx.apply (.chars [c]))
    refine ⟨result, hresult, fun fuel rest hfuel => ?_⟩
    obtain ⟨k, rfl⟩ := Nat.exists_eq_succ_of_ne_zero (Nat.ne_of_gt (Nat.zero_lt_of_lt hfuel))
    rw [cons_append, rounds, round_char (hcs c mem_cons_self) hc]
    exact hrun k rest (Nat.lt_of_succ_lt_succ hfuel)
  | @directive t r spec hspec _ ih =>
    have hsuffix : spec :: r <:+ t := hspec ▸ pastOptions_suffix t
    have hr : ∀ c ∈ r, c ≠ 0 := fun c hc =>
      hcs c (mem_cons_of_mem _ (hsuffix.subset (mem_cons_of_mem _ hc)))
    obtain ⟨effect, -, hround⟩ := round_inside hspec E i
    rcases effect with _ | ⟨effect, j⟩
    · refine ⟨.error .string, by simp, fun fuel rest hfuel => ?_⟩
      obtain ⟨k, rfl⟩ := Nat.exists_eq_succ_of_ne_zero (Nat.ne_of_gt (Nat.zero_lt_of_lt hfuel))
      rw [cons_append, rounds, hround]
    · obtain ⟨result, hresult, hrun⟩ := ih hr j (ctx.apply effect)
      refine ⟨result, hresult, fun fuel rest hfuel => ?_⟩
      obtain ⟨k, rfl⟩ := Nat.exists_eq_succ_of_ne_zero (Nat.ne_of_gt (Nat.zero_lt_of_lt hfuel))
      rw [cons_append, rounds, hround]
      have hlen := hsuffix.length_le
      rw [length_cons] at hlen hfuel
      exact hrun k rest (by omega)

def longStrings : Env := ⟨fun _ => 1, fun _ => replicate (2^31) 1 ++ [0]⟩

theorem strlen_replicate (n : Nat) (rest : List UInt8) : strlen (replicate n 1 ++ 0 :: rest) = some n := by
  induction n with
  | zero => rfl
  | succ n ih =>
    rw [replicate_succ, cons_append, strlen, if_neg (by decide), ih]
    rfl

theorem handleStringSpecifier_precision (hset : o.precisionSet = true) (str : List UInt8) :
    handleStringSpecifier o str = if o.precision.toNat ≤ str.length
      then some (justify o 32 o.precision (str.take o.precision.toNat)) else none := by
  rw [handleStringSpecifier, if_pos hset, bind_eq_bind, bind_some]

theorem handleStringSpecifier_strlen {str : List UInt8} (hset : ¬ o.precisionSet = true)
    (hstr : strlen str = some n) : handleStringSpecifier o str = if (toI32 n).toNat ≤ str.length
      then some (justify o 32 (toI32 n) (str.take (toI32 n).toNat)) else none := by
  rw [handleStringSpecifier, if_neg hset, hstr, map_some, bind_eq_bind, bind_some]

theorem handleStringSpecifier_long (hn : 2^31 ≤ n) (ho : InRange o) :
    handleStringSpecifier o (replicate n 1 ++ [0]) ≠ none := by
  have hlen : (replicate n (1 : UInt8) ++ [0]).length = n + 1 := by
    rw [length_append, length_replicate, length_singleton]
  have hstr := strlen_replicate n []
  generalize replicate n (1 : UInt8) ++ [0] = str at hlen hstr ⊢
  have hfits : ∀ z : Int, z < 2^31 → z.toNat ≤ str.length := by
    intro z hz
    omega
  by_cases hset : o.precisionSet = true
  · rw [handleStringSpecifier_precision hset, if_pos (hfits _ ho.precision.2)]
    exact some_ne_none _
  · rw [handleStringSpecifier_strlen hset hstr, if_pos (hfits _ (toI32_range _).2)]
    exact some_ne_none _

theorem direct_longStrings (hopts : InRange opts) (spec : UInt8) (source : List UInt8) (i : Nat) :
    direct longStrings opts spec source i ≠ none := by
  have hfinal := finalOptions_inRange hopts longStrings spec i
  unfold direct handle
  cases Specifier.of spec with
  | string =>
    intro h
    exact handleStringSpecifier_long le_rfl hfinal (map_eq_none_iff.mp h)
  | _ => exact some_ne_none _

theorem rounds_incomplete (hcs : ∀ c ∈ cs, c ≠ 0) (hincomplete : ¬ Complete cs) (fuel i : Nat) (ctx : Context) :
    rounds longStrings fuel (cs ++ [0]) i ctx = .error .format := by
  induction fuel generalizing cs i ctx with
  | zero => rfl
  | succ fuel ih =>
    rcases cs with _ | ⟨c, t⟩
    · exact absurd .nil hincomplete
    have ht : ∀ c ∈ t, c ≠ 0 := fun d hd => hcs d (mem_cons_of_mem _ hd)
    rw [cons_append, rounds]
    by_cases hc : c = 37
    · subst hc
      rcases hpast : pastOptions t with _ | ⟨spec, r⟩
      · obtain ⟨opts, hparse⟩ := parseDirective_outside hpast
        obtain ⟨⟨effect, j⟩, hdirect⟩ := ne_none_iff_exists'.mp
          (direct_longStrings (parseDirective_inRange (hparse [])) 0 (37 :: (t ++ [0])) i)
        have hround : round longStrings (37 :: (t ++ [0])) i = .ok (some (effect, [], j)) := by
          rw [round, if_neg (by decide), if_neg (by decide), hparse]
          simp only [length_nil, Nat.sub_zero, take_length, hdirect]
        rw [hround]
        cases fuel with
        | zero => rfl
        | succ fuel => rfl
      · have hsuffix : spec :: r <:+ t := hpast ▸ pastOptions_suffix t
        have hr : ∀ c ∈ r, c ≠ 0 := fun c hc => ht c (hsuffix.subset (mem_cons_of_mem _ hc))
        obtain ⟨effect, ⟨opts, source, hopts, heffect⟩, hround⟩ := round_inside hpast longStrings i
        obtain ⟨⟨effect, j⟩, rfl⟩ := ne_none_iff_exists'.mp (heffect ▸ direct_longStrings hopts spec source i)
        rw [hround]
        exact ih hr (fun h => hincomplete (.directive hpast h)) j _
    · rw [round_char (hcs c mem_cons_self) hc]
      exact ih ht (fun h => hincomplete (.char hc h)) i _

end Comus.Printf
