import Comus.Klib.RoundTrip
import Mathlib.Data.List.TakeWhile

/-!
# Which texts are numbers (kernel/lib/strtox.c, strtoux.c)

A numeral is described here by what it looks like, and the longest one at the start of a
text is compared with what `strtol` and `strtoul` take. They pass over `0x`, and in radix 0
over a leading `0`, before they have seen a digit.
-/

namespace Comus.Klib

open Word Bytes Numeral Option List
open Fs (ctoi isspace)

variable {signs : Bool} {radix base : Int} {cs b ds core text rest : List UInt8} {v w : Int} {c d x : UInt8}
variable {cast : Int → Int}
variable {u : List UInt8}

def plainBase (radix : Int) (ds : List UInt8) : Int :=
  if radix = 0 then (if ds.head? = some 48 then 8 else 10) else radix

/-- At least one digit, with or without the prefix of base 16, and the value. -/
inductive IsUnsigned (radix : Int) : List UInt8 → Int → Prop
  | hex (x : UInt8) (ds : List UInt8) (hx : x = 120 ∨ x = 88) (hradix : radix = 0 ∨ radix = 16) (hne : ds ≠ [])
      (hds : ∀ d ∈ ds, IsDigit 16 d) : IsUnsigned radix (48 :: x :: ds) (valueOf 16 ds)
  | plain (ds : List UInt8) (hne : ds ≠ []) (hds : ∀ d ∈ ds, IsDigit (plainBase radix ds) d) :
      IsUnsigned radix ds (valueOf (plainBase radix ds) ds)

def IsSign (signs : Bool) (sign : List UInt8) : Prop := sign = [] ∨ signs = true ∧ (sign = [43] ∨ sign = [45])

def IsNumeral (signs : Bool) (radix : Int) (text : List UInt8) (w : Int) : Prop :=
  ∃ blanks sign core v, text = blanks ++ (sign ++ core) ∧ (∀ c ∈ blanks, isspace c = true) ∧
    IsSign signs sign ∧ IsUnsigned radix core v ∧ w = if sign = [45] then -v else v

structure IsLongest (signs : Bool) (radix : Int) (cs text : List UInt8) (w : Int) : Prop where
  start : text <+: cs
  numeral : IsNumeral signs radix text w
  longest : ∀ text' w', text' <+: cs → IsNumeral signs radix text' w' → text'.length ≤ text.length

/-- The function takes the longest numeral at the start of the string `cs`, whatever is behind
the terminator. -/
def Accepts (signs : Bool) (f : List UInt8 → Int → Option (Int × List UInt8)) (radix : Int)
    (cs : List UInt8) : Prop :=
  ∀ rest, ∃ v e, f (cs ++ 0 :: rest) radix = some (v, e) ∧
    (e = cs ++ 0 :: rest ↔ ¬ ∃ text w, text <+: cs ∧ IsNumeral signs radix text w) ∧
    ∀ text w, IsLongest signs radix cs text w → cs ++ 0 :: rest = text ++ e ∧ v % 2^64 = w % 2^64

def body (signs : Bool) (cs : List UInt8) : List UInt8 :=
  if signs then (takeSign (cs.dropWhile isspace)).2 else cs.dropWhile isspace

/-- What stands in front of `body`, and whether it ends with a minus sign. -/
def isNegative (signs : Bool) (cs : List UInt8) : Bool := signs && (takeSign (cs.dropWhile isspace)).1

/-- `0x` without a digit behind it; in radix 0 also a `0` that no digit of an octal number
follows. -/
def Misread (radix : Int) (b : List UInt8) : Prop :=
  (radix = 0 ∨ radix = 16) ∧ (∃ x u, b = 48 :: x :: u ∧ (x = 120 ∨ x = 88) ∧ ∀ d, u.head? = some d → ¬ IsDigit 16 d) ∨
  radix = 0 ∧ ∃ u, b = 48 :: u ∧ ∀ d, u.head? = some d → ¬ (d = 120 ∨ d = 88) ∧ ¬ IsDigit 8 d

def digitsAt (base : Int) (b : List UInt8) : List UInt8 := b.takeWhile fun c => decide (IsDigit base c)

theorem digitsAt_isDigit : ∀ d ∈ digitsAt base b, IsDigit base d := by
  intro d hd
  have hdec := mem_takeWhile_imp (p := fun c => decide (IsDigit base c)) hd
  exact of_decide_eq_true hdec

theorem digitsAt_append (base : Int) (b : List UInt8) :
    b = digitsAt base b ++ b.dropWhile fun c => decide (IsDigit base c) :=
  takeWhile_append_dropWhile.symm

theorem length_le_digitsAt (hpre : ds <+: b) (hds : ∀ d ∈ ds, IsDigit base d) :
    ds.length ≤ (digitsAt base b).length := by
  induction ds generalizing b with
  | nil => exact Nat.zero_le _
  | cons d ds ih =>
    obtain ⟨t, rfl⟩ := hpre
    have hd := hds d mem_cons_self
    have htail := ih (prefix_append ds t) fun e he => hds e (mem_cons_of_mem _ he)
    unfold digitsAt at htail ⊢
    rw [cons_append, takeWhile_cons_of_pos (by simpa using hd), length_cons, length_cons]
    omega

theorem not_isDigit_zero : ¬ IsDigit base 0 := fun h => h.ne_zero rfl

theorem takeDigits_string (hcast : Wraps cast) (base : Int) (b rest : List UInt8) : ∃ e,
    b ++ 0 :: rest = digitsAt base b ++ e ∧ takeDigits cast base (b ++ 0 :: rest) 0 false =
      some (cast (valueOf base (digitsAt base b)), !(digitsAt base b).isEmpty, e) := by
  have hsplit := digitsAt_append base b
  have hds : ∀ d ∈ digitsAt base b, IsDigit base d := digitsAt_isDigit
  cases hrest : b.dropWhile fun c => decide (IsDigit base c) with
  | nil =>
    rw [hrest, append_nil] at hsplit
    refine ⟨0 :: rest, by rw [← hsplit], ?_⟩
    have htake := takeDigits_value hcast hds not_isDigit_zero rest
    rw [← hsplit] at htake ⊢
    exact htake
  | cons c t =>
    have hc : ¬ IsDigit base c := by
      have hhead := head?_dropWhile_not (fun c => decide (IsDigit base c)) b
      rw [hrest] at hhead
      simpa using hhead
    rw [hrest] at hsplit
    refine ⟨c :: (t ++ 0 :: rest), ?_, ?_⟩
    · rw [← cons_append, ← append_assoc, ← hsplit]
    · have htake := takeDigits_value hcast hds hc (t ++ 0 :: rest)
      rw [← cons_append, ← append_assoc, ← hsplit] at htake
      exact htake

def Prefixed (b : List UInt8) : Prop := ∃ x u, b = 48 :: x :: u ∧ (x = 120 ∨ x = 88)

theorem not_isDigit_x (hr : radix = 0 ∨ radix = 16) (hx : x = 120 ∨ x = 88) : ¬ IsDigit (plainBase radix ds) x := by
  have hvalue : ctoi x = 33 := by rcases hx with rfl | rfl <;> decide
  unfold IsDigit plainBase
  split_ifs <;> omega

theorem IsUnsigned.unique (h : IsUnsigned radix core v) (h' : IsUnsigned radix core w) : v = w := by
  cases h with
  | hex x ds hx hr _ _ =>
    cases h' with
    | hex => rfl
    | plain _ _ hds => exact absurd (hds x (by simp)) (not_isDigit_x hr hx)
  | plain ds _ hds =>
    cases h' with
    | hex x ds hx hr _ _ => exact absurd (hds x (by simp)) (not_isDigit_x hr hx)
    | plain => rfl

theorem IsUnsigned.ne_nil (h : IsUnsigned radix core v) : core ≠ [] := by
  cases h with
  | hex => simp
  | plain _ hne _ => exact hne

/-- What `takeNumber` makes of the text `b`: the longest unsigned numeral at its start, or
nothing if there is none. -/
structure Takes (radix : Int) (cast : Int → Int) (b rest : List UInt8) (num : Int) (hasDigit : Bool)
    (e : List UInt8) : Prop where
  found : hasDigit = true → ∃ core v t, b = core ++ t ∧ e = t ++ 0 :: rest ∧ IsUnsigned radix core v ∧
    num = cast v ∧ ∀ core' v', core' <+: b → IsUnsigned radix core' v' → core'.length ≤ core.length
  none : hasDigit = false → ∀ core v, core <+: b → ¬ IsUnsigned radix core v

theorem takeDigits_takes (hcast : Wraps cast) (base : Int) (b rest : List UInt8) : ∃ t,
    b = digitsAt base b ++ t ∧ takeDigits cast base (b ++ 0 :: rest) 0 false =
      some (cast (valueOf base (digitsAt base b)), !(digitsAt base b).isEmpty, t ++ 0 :: rest) := by
  obtain ⟨e, hsplit, htake⟩ := takeDigits_string hcast base b rest
  have hb := digitsAt_append base b
  refine ⟨_, hb, ?_⟩
  nth_rewrite 1 [hb] at hsplit
  rw [append_assoc] at hsplit
  rw [htake, append_cancel_left hsplit]

theorem takes_plain (hcast : Wraps cast) (hcore : ∀ core v, core <+: b → (IsUnsigned radix core v ↔
      core ≠ [] ∧ (∀ d ∈ core, IsDigit base d) ∧ v = valueOf base core)) (rest : List UInt8) :
    ∃ num hasDigit e, takeDigits cast base (b ++ 0 :: rest) 0 false = some (num, hasDigit, e) ∧
      Takes radix cast b rest num hasDigit e := by
  obtain ⟨t, hb, htake⟩ := takeDigits_takes hcast base b rest
  have hpre : digitsAt base b <+: b := ⟨t, hb.symm⟩
  refine ⟨_, _, _, htake, ⟨fun hhas => ?_, fun hhas => ?_⟩⟩
  · have hne : digitsAt base b ≠ [] := by simpa using hhas
    refine ⟨_, _, t, hb, rfl, (hcore _ _ hpre).mpr ⟨hne, digitsAt_isDigit, rfl⟩, rfl, ?_⟩
    intro core' v' hcore' hunsigned
    exact length_le_digitsAt hcore' ((hcore _ _ hcore').mp hunsigned).2.1
  · intro core v hcore' hunsigned
    obtain ⟨hne, hds, -⟩ := (hcore _ _ hcore').mp hunsigned
    have hlen := length_le_digitsAt hcore' hds
    have hnil : digitsAt base b = [] := by simpa using hhas
    rw [hnil, length_nil] at hlen
    exact hne (length_eq_zero_iff.mp (Nat.le_zero.mp hlen))

theorem isUnsigned_plain_iff (hno : radix = 0 ∨ radix = 16 → ¬ Prefixed b)
    (hbase : ∀ ds, ds <+: b → ds ≠ [] → plainBase radix ds = base) (hpre : core <+: b) :
    IsUnsigned radix core v ↔ core ≠ [] ∧ (∀ d ∈ core, IsDigit base d) ∧ v = valueOf base core := by
  constructor
  · intro h
    cases h with
    | hex x ds hx hr _ _ =>
      obtain ⟨t, rfl⟩ := hpre
      exact absurd ⟨x, ds ++ t, rfl, hx⟩ (hno hr)
    | plain _ hne hds =>
      rw [hbase core hpre hne] at hds ⊢
      exact ⟨hne, hds, rfl⟩
  · rintro ⟨hne, hds, rfl⟩
    rw [← hbase core hpre hne] at hds ⊢
    exact .plain core hne hds

theorem takeRadix_prefixed (hr : radix = 0 ∨ radix = 16) (hx : x = 120 ∨ x = 88) (s : List UInt8) :
    takeRadix radix (48 :: x :: s) = some (16, s) := by
  unfold takeRadix
  rw [if_pos hr]
  dsimp only
  rw [if_pos rfl, if_pos hx]

theorem takeRadix_octal (hx : ¬ (x = 120 ∨ x = 88)) (s : List UInt8) :
    takeRadix 0 (48 :: x :: s) = some (8, x :: s) := by
  unfold takeRadix
  rw [if_pos (.inl rfl)]
  dsimp only
  rw [if_pos rfl, if_neg hx, if_pos rfl]

theorem takeRadix_head (hc : c ≠ 48) (s : List UInt8) :
    takeRadix radix (c :: s) = some (if radix = 0 then 10 else radix, c :: s) := by
  unfold takeRadix
  split_ifs with hr hzero
  · dsimp only
    rw [if_neg hc]
  · dsimp only
    rw [if_neg hc]
  · omega
  · rfl

theorem string_head (b rest : List UInt8) : ∃ c s, b ++ 0 :: rest = c :: s ∧ (c = 0 ∨ b.head? = some c) := by
  cases b with
  | nil => exact ⟨0, rest, rfl, .inl rfl⟩
  | cons c b => exact ⟨c, b ++ 0 :: rest, rfl, .inr rfl⟩

section Takes

variable (hcast : Wraps cast)
include hcast

theorem takeNumber_plain (hradix : takeRadix radix (b ++ 0 :: rest) = some (base, b ++ 0 :: rest))
    (hno : radix = 0 ∨ radix = 16 → ¬ Prefixed b)
    (hbase : ∀ ds, ds <+: b → ds ≠ [] → plainBase radix ds = base) :
    ∃ num hasDigit e, takeNumber cast radix (b ++ 0 :: rest) = some (num, hasDigit, e) ∧
      Takes radix cast b rest num hasDigit e := by
  obtain ⟨num, hasDigit, e, htake, htakes⟩ :=
    takes_plain hcast (fun _ _ hpre => isUnsigned_plain_iff hno hbase hpre) rest
  refine ⟨num, hasDigit, e, ?_, htakes⟩
  unfold takeNumber
  rw [hradix]
  exact htake

theorem takeNumber_head (hhead : b.head? ≠ some 48) (rest : List UInt8) :
    ∃ num hasDigit e, takeNumber cast radix (b ++ 0 :: rest) = some (num, hasDigit, e) ∧
      Takes radix cast b rest num hasDigit e := by
  have hradix : takeRadix radix (b ++ 0 :: rest) = some (if radix = 0 then 10 else radix, b ++ 0 :: rest) := by
    obtain ⟨c, s, hcs, hc⟩ := string_head b rest
    rw [hcs]
    apply takeRadix_head
    rintro rfl
    rcases hc with hc | hc
    · cases hc
    · exact hhead hc
  refine takeNumber_plain hcast hradix ?_ ?_
  · rintro - ⟨x, u, rfl, -⟩
    exact hhead rfl
  · rintro ds ⟨t, rfl⟩ hne
    obtain ⟨d, ds, rfl⟩ := exists_cons_of_ne_nil hne
    unfold plainBase
    rw [if_neg (c := (d :: ds).head? = some 48) hhead]

theorem takeNumber_other (hr : ¬ (radix = 0 ∨ radix = 16)) (rest : List UInt8) :
    ∃ num hasDigit e, takeNumber cast radix (b ++ 0 :: rest) = some (num, hasDigit, e) ∧
      Takes radix cast b rest num hasDigit e := by
  refine takeNumber_plain hcast (if_neg hr) (fun h => absurd h hr) ?_
  intro ds _ _
  exact if_neg fun h => hr (.inl h)

theorem takeNumber_hex (hr : radix = 0 ∨ radix = 16) (hx : x = 120 ∨ x = 88) (rest : List UInt8) :
    ∃ t, u = digitsAt 16 u ++ t ∧ takeNumber cast radix (48 :: x :: u ++ 0 :: rest) =
      some (cast (valueOf 16 (digitsAt 16 u)), !(digitsAt 16 u).isEmpty, t ++ 0 :: rest) := by
  obtain ⟨t, hu, htake⟩ := takeDigits_takes hcast 16 u rest
  refine ⟨t, hu, ?_⟩
  unfold takeNumber
  rw [cons_append, cons_append, takeRadix_prefixed hr hx]
  exact htake

theorem takeNumber_octal (hx : ∀ d, u.head? = some d → ¬ (d = 120 ∨ d = 88)) (rest : List UInt8) :
    ∃ t, u = digitsAt 8 u ++ t ∧ takeNumber cast 0 (48 :: u ++ 0 :: rest) =
      some (cast (valueOf 8 (digitsAt 8 u)), !(digitsAt 8 u).isEmpty, t ++ 0 :: rest) := by
  obtain ⟨t, hu, htake⟩ := takeDigits_takes hcast 8 u rest
  refine ⟨t, hu, ?_⟩
  obtain ⟨c, s, hcs, hc⟩ := string_head u rest
  have hno : ¬ (c = 120 ∨ c = 88) := by
    rcases hc with rfl | hc
    · decide
    · exact hx c hc
  unfold takeNumber
  rw [cons_append, hcs, takeRadix_octal hno, ← hcs]
  exact htake

end Takes

theorem digitsAt_ne_nil (h : b.head? = some d) (hd : IsDigit base d) : digitsAt base b ≠ [] := by
  obtain ⟨t, rfl⟩ : ∃ t, b = d :: t := by
    cases b with
    | nil => cases h
    | cons c b => exact ⟨b, by rw [some.inj h]⟩
  unfold digitsAt
  rw [takeWhile_cons_of_pos (by simpa using hd)]
  simp

theorem digitsAt_eq_nil (h : ∀ d, b.head? = some d → ¬ IsDigit base d) : digitsAt base b = [] := by
  cases b with
  | nil => rfl
  | cons c b =>
    have hc := h c rfl
    exact takeWhile_cons_of_neg (by simpa using hc)

theorem length_le_of_prefixed (hr : radix = 0 ∨ radix = 16) (hx : x = 120 ∨ x = 88)
    (hpre : core <+: 48 :: x :: u) (h : IsUnsigned radix core v) : core.length ≤ 2 + (digitsAt 16 u).length := by
  cases h with
  | hex y ds _ _ _ hds =>
    obtain ⟨t, ht⟩ := hpre
    obtain ⟨-, hrest⟩ := cons.inj ht
    have hlen := length_le_digitsAt (b := u) ⟨t, (cons.inj hrest).2⟩ hds
    rw [length_cons, length_cons]
    omega
  | plain _ _ hds =>
    -- the second character would be the `x`
    by_contra hlong
    match core, hpre, hds, hlong with
    | [], _, _, hlong => simp at hlong
    | [_], _, _, hlong => simp at hlong
    | _ :: y :: _, ⟨t, ht⟩, hds, _ =>
      obtain ⟨rfl, -⟩ := cons.inj (cons.inj ht).2
      exact not_isDigit_x hr hx (hds y (by simp))

theorem length_le_of_octal (hx : ∀ d, u.head? = some d → ¬ (d = 120 ∨ d = 88))
    (hpre : core <+: 48 :: u) (h : IsUnsigned 0 core v) : core.length ≤ 1 + (digitsAt 8 u).length := by
  obtain ⟨t, ht⟩ := hpre
  cases h with
  | hex y ds hy _ _ _ =>
    rw [cons_append, cons_append] at ht
    exact absurd hy (hx y (by rw [← (cons.inj ht).2]; rfl))
  | plain _ hne hds =>
    obtain ⟨d, ds, rfl⟩ := exists_cons_of_ne_nil hne
    rw [cons_append] at ht
    obtain ⟨rfl, hu⟩ := cons.inj ht
    have hlen := length_le_digitsAt (b := u) ⟨t, hu⟩ fun e he => hds e (mem_cons_of_mem _ he)
    change ds.length ≤ (digitsAt 8 u).length at hlen
    rw [length_cons]
    omega

theorem takeNumber_takes (hcast : Wraps cast) (h : ¬ Misread radix b) (rest : List UInt8) :
    ∃ num hasDigit e, takeNumber cast radix (b ++ 0 :: rest) = some (num, hasDigit, e) ∧
      Takes radix cast b rest num hasDigit e := by
  by_cases hr : radix = 0 ∨ radix = 16
  swap
  · exact takeNumber_other hcast hr rest
  by_cases hhead : b.head? = some 48
  swap
  · exact takeNumber_head hcast hhead rest
  obtain ⟨u, rfl⟩ : ∃ u, b = 48 :: u := by
    cases b with
    | nil => cases hhead
    | cons c b => exact ⟨b, by rw [some.inj hhead]⟩
  by_cases hx : ∃ x, u.head? = some x ∧ (x = 120 ∨ x = 88)
  · obtain ⟨x, hxu, hx⟩ := hx
    obtain ⟨u, rfl⟩ : ∃ t, u = x :: t := by
      cases u with
      | nil => cases hxu
      | cons c b => exact ⟨b, by rw [some.inj hxu]⟩
    obtain ⟨t, hu, htake⟩ := takeNumber_hex hcast (u := u) hr hx rest
    have hdigit : ∃ d, u.head? = some d ∧ IsDigit 16 d := by
      by_contra hno
      push Not at hno
      exact h (.inl ⟨hr, x, u, rfl, hx, hno⟩)
    obtain ⟨d, hd, hd16⟩ := hdigit
    have hne := digitsAt_ne_nil hd hd16
    refine ⟨_, _, _, htake, ⟨fun _ => ?_, fun hhas => ?_⟩⟩
    · refine ⟨48 :: x :: digitsAt 16 u, _, t, ?_, rfl, .hex x _ hx hr hne digitsAt_isDigit, rfl, ?_⟩
      · rw [cons_append, cons_append, ← hu]
      · intro core v hpre hcore
        have hlen := length_le_of_prefixed hr hx hpre hcore
        rw [length_cons, length_cons]
        omega
    · exact absurd hhas (by simpa using hne)
  · have hx' : ∀ d, u.head? = some d → ¬ (d = 120 ∨ d = 88) := fun d hd hd' => hx ⟨d, hd, hd'⟩
    rcases hr with rfl | rfl
    · obtain ⟨t, hu, htake⟩ := takeNumber_octal hcast hx' rest
      have hdigit : ∃ d, u.head? = some d ∧ IsDigit 8 d := by
        by_contra hno
        push Not at hno
        exact h (.inr ⟨rfl, u, rfl, fun d hd => ⟨hx' d hd, hno d hd⟩⟩)
      obtain ⟨d, hd, hd8⟩ := hdigit
      have hne := digitsAt_ne_nil hd hd8
      refine ⟨_, _, _, htake, ⟨fun _ => ?_, fun hhas => ?_⟩⟩
      · refine ⟨48 :: digitsAt 8 u, valueOf 8 (48 :: digitsAt 8 u), t, ?_, rfl, ?_, rfl, ?_⟩
        · rw [cons_append, ← hu]
        · refine .plain (48 :: digitsAt 8 u) (by simp) ?_
          intro e he
          rcases mem_cons.mp he with rfl | he
          · exact (by decide : IsDigit 8 48)
          · exact digitsAt_isDigit e he
        · intro core v hpre hcore
          have hlen := length_le_of_octal hx' hpre hcore
          rw [length_cons]
          omega
      · exact absurd hhas (by simpa using hne)
    · refine takeNumber_plain hcast ?_ ?_ fun _ _ _ => rfl
      · obtain ⟨c, s, hcs, hc⟩ := string_head u rest
        rw [cons_append, hcs]
        apply takeRadix_plain (by decide) (.inr _)
        rcases hc with rfl | hc
        · decide
        · exact hx' c hc
      · rintro - ⟨x, t, ht, hxt⟩
        exact hx' x (by rw [(cons.inj ht).2]; rfl) hxt

/-- A text that begins with a zero, but none is found. -/
theorem takeNumber_misread (hcast : Wraps cast) (h : Misread radix b) (rest : List UInt8) :
    (∃ num e, takeNumber cast radix (b ++ 0 :: rest) = some (num, false, e)) ∧
      IsUnsigned radix [48] 0 ∧ [48] <+: b := by
  have hzero : radix = 0 ∨ radix = 16 → IsUnsigned radix [48] 0 := by
    rintro (rfl | rfl)
    · exact .plain [48] (by simp) (forall_mem_singleton.mpr (by decide))
    · exact .plain [48] (by simp) (forall_mem_singleton.mpr (by decide))
  rcases h with ⟨hr, x, u, rfl, hx, hno⟩ | ⟨rfl, u, rfl, hno⟩
  · obtain ⟨t, -, htake⟩ := takeNumber_hex hcast (u := u) hr hx rest
    rw [digitsAt_eq_nil hno] at htake
    exact ⟨⟨_, _, htake⟩, hzero hr, ⟨x :: u, rfl⟩⟩
  · obtain ⟨t, -, htake⟩ := takeNumber_octal hcast (fun d hd => (hno d hd).1) rest
    rw [digitsAt_eq_nil fun d hd => (hno d hd).2] at htake
    exact ⟨⟨_, _, htake⟩, hzero (.inl rfl), ⟨u, rfl⟩⟩

theorem IsUnsigned.head (h : IsUnsigned radix core v) :
    ∃ c t base, core = c :: t ∧ IsDigit base c := by
  cases h with
  | hex x ds _ _ _ _ => exact ⟨48, x :: ds, 8, rfl, by decide⟩
  | plain _ hne hds =>
    obtain ⟨d, ds, rfl⟩ := exists_cons_of_ne_nil hne
    exact ⟨d, ds, _, rfl, hds d mem_cons_self⟩

theorem IsDigit.not_sign (h : IsDigit base c) : c ≠ 45 ∧ c ≠ 43 := by
  have hminus : ctoi 45 = -1 := by decide
  have hplus : ctoi 43 = -1 := by decide
  unfold IsDigit at h
  constructor
  · rintro rfl
    omega
  · rintro rfl
    omega

theorem takeSign_digit (h : IsDigit base c) (s : List UInt8) : takeSign (c :: s) = (false, c :: s) := by
  rw [takeSign, if_neg h.not_sign.1, if_neg h.not_sign.2]

theorem lead_body (signs : Bool) (cs : List UInt8) : ∃ blanks sign, cs = blanks ++ (sign ++ body signs cs) ∧
    (∀ c ∈ blanks, isspace c = true) ∧ IsSign signs sign ∧ (isNegative signs cs = true ↔ sign = [45]) := by
  have hsplit : cs = cs.takeWhile isspace ++ cs.dropWhile isspace := takeWhile_append_dropWhile.symm
  have hblank : ∀ c ∈ cs.takeWhile isspace, isspace c = true := fun c hc => mem_takeWhile_imp hc
  cases signs with
  | false => exact ⟨_, [], hsplit, hblank, .inl rfl, by simp [isNegative]⟩
  | true =>
    refine ⟨cs.takeWhile isspace, ?_⟩
    unfold body isNegative
    rw [if_pos rfl, Bool.true_and]
    generalize cs.dropWhile isspace = t at hsplit
    cases t with
    | nil => exact ⟨[], hsplit, hblank, .inl rfl, by simp [takeSign]⟩
    | cons c t =>
      rw [takeSign]
      split_ifs with hminus hplus
      · subst hminus
        exact ⟨[45], hsplit, hblank, .inr ⟨rfl, .inr rfl⟩, by simp⟩
      · subst hplus
        exact ⟨[43], hsplit, hblank, .inr ⟨rfl, .inl rfl⟩, by simp⟩
      · exact ⟨[], hsplit, hblank, .inl rfl, by simp⟩

theorem dropWhile_blanks {blanks t : List UInt8} (hblanks : ∀ c ∈ blanks, isspace c = true)
    (hc : isspace c = false) : (blanks ++ c :: t).dropWhile isspace = c :: t := by
  rw [dropWhile_append_of_pos hblanks, dropWhile_cons_of_neg (by simp [hc])]

theorem isNumeral_iff : text <+: cs ∧ IsNumeral signs radix text w ↔ ∃ t core v, cs = text ++ t ∧
    body signs cs = core ++ t ∧ IsUnsigned radix core v ∧ w = if isNegative signs cs then -v else v := by
  constructor
  · rintro ⟨⟨t, rfl⟩, blanks, sign, core, v, rfl, hblanks, hsign, hcore, rfl⟩
    obtain ⟨c, u, base, rfl, hc⟩ := hcore.head
    refine ⟨t, c :: u, v, rfl, ?_⟩
    unfold body isNegative
    rcases hsign with rfl | ⟨rfl, rfl | rfl⟩
    · have hdrop : (blanks ++ ([] ++ c :: u) ++ t).dropWhile isspace = c :: (u ++ t) := by
        rw [nil_append, append_assoc]
        exact dropWhile_blanks hblanks hc.not_space
      rw [hdrop, takeSign_digit hc]
      refine ⟨?_, hcore, ?_⟩
      · cases signs <;> rfl
      · cases signs <;> rfl
    · have hdrop : (blanks ++ ([43] ++ c :: u) ++ t).dropWhile isspace = 43 :: (c :: u ++ t) := by
        rw [append_assoc]
        exact dropWhile_blanks hblanks (by decide)
      rw [hdrop]
      exact ⟨rfl, hcore, rfl⟩
    · have hdrop : (blanks ++ ([45] ++ c :: u) ++ t).dropWhile isspace = 45 :: (c :: u ++ t) := by
        rw [append_assoc]
        exact dropWhile_blanks hblanks (by decide)
      rw [hdrop]
      exact ⟨rfl, hcore, rfl⟩
  · rintro ⟨t, core, v, htext, hbody, hcore, rfl⟩
    obtain ⟨blanks, sign, hcs, hblanks, hsign, hneg⟩ := lead_body signs cs
    refine ⟨⟨t, htext.symm⟩, blanks, sign, core, v, ?_, hblanks, hsign, hcore, ?_⟩
    · rw [hbody, htext, ← append_assoc sign, ← append_assoc] at hcs
      exact append_cancel_right hcs
    · by_cases hsign45 : sign = [45]
      · rw [if_pos hsign45, if_pos (hneg.mpr hsign45)]
      · rw [if_neg hsign45, if_neg fun h => hsign45 (hneg.mp h)]

theorem skipSpace_string (cs rest : List UInt8) :
    skipSpace (cs ++ 0 :: rest) = some (cs.dropWhile isspace ++ 0 :: rest) := by
  induction cs with
  | nil => exact skipSpace_cons (by decide)
  | cons c cs ih =>
    by_cases hc : isspace c = true
    · rw [cons_append, skipSpace, if_pos hc, ih, dropWhile_cons_of_pos hc]
    · rw [dropWhile_cons_of_neg hc, cons_append]
      exact skipSpace_cons (by simpa using hc)

theorem takeSign_string (t rest : List UInt8) :
    takeSign (t ++ 0 :: rest) = ((takeSign t).1, (takeSign t).2 ++ 0 :: rest) := by
  cases t with
  | nil => rfl
  | cons c t =>
    rw [cons_append, takeSign, takeSign]
    split_ifs <;> rfl

def convert (signs : Bool) (cast : Int → Int) (s : List UInt8) (radix : Int) : Option (Int × List UInt8) :=
  if signs then strtox cast s radix else strtoux cast s radix

theorem convert_eq (signs : Bool) (cast : Int → Int) (cs rest : List UInt8) (radix : Int) :
    convert signs cast (cs ++ 0 :: rest) radix =
      (takeNumber cast radix (body signs cs ++ 0 :: rest)).map fun r =>
        (if isNegative signs cs then cast (-r.1) else r.1, if r.2.1 then r.2.2 else cs ++ 0 :: rest) := by
  cases signs with
  | false =>
    change strtoux cast (cs ++ 0 :: rest) radix = _
    unfold strtoux body isNegative
    rw [skipSpace_string]
    simp only [bind_eq_bind, bind_some, Bool.false_and, Bool.false_eq_true, if_false]
    cases takeNumber cast radix (cs.dropWhile isspace ++ 0 :: rest) <;> rfl
  | true =>
    change strtox cast (cs ++ 0 :: rest) radix = _
    unfold strtox body isNegative
    rw [skipSpace_string]
    simp only [bind_eq_bind, bind_some, takeSign_string, if_true]
    cases takeNumber cast radix ((takeSign (cs.dropWhile isspace)).2 ++ 0 :: rest) <;> rfl

/-- The function takes the longest numeral unless it passes over the zero of a short one. -/
theorem convert_accepts_iff (hcast : Wraps cast) (hmod : ∀ z, cast z % 2^64 = z % 2^64) :
    Accepts signs (convert signs cast) radix cs ↔ ¬ Misread radix (body signs cs) := by
  constructor
  · intro h hmis
    obtain ⟨v, e, hrun, hstart, -⟩ := h []
    obtain ⟨⟨num, e', htake⟩, hzero, t, ht⟩ := takeNumber_misread hcast hmis []
    rw [convert_eq, htake] at hrun
    obtain ⟨-, he⟩ := Prod.mk.inj (some.inj hrun)
    obtain ⟨blanks, sign, hcs, -⟩ := lead_body signs cs
    rw [← ht, ← append_assoc, ← append_assoc] at hcs
    exact hstart.mp he.symm ⟨_, _, isNumeral_iff.mpr ⟨t, [48], 0, hcs, ht.symm, hzero, rfl⟩⟩
  · intro h rest
    obtain ⟨num, hasDigit, e, htake, htakes⟩ := takeNumber_takes hcast h rest
    rw [convert_eq, htake, map_some]
    refine ⟨_, _, rfl, ?_⟩
    dsimp only
    cases hasDigit with
    | false =>
      have hnone : ¬ ∃ text w, text <+: cs ∧ IsNumeral signs radix text w := by
        rintro ⟨text, w, htext⟩
        obtain ⟨t, core, v, -, hbody, hcore, -⟩ := isNumeral_iff.mp htext
        exact htakes.none rfl core v ⟨t, hbody.symm⟩ hcore
      refine ⟨⟨fun _ => hnone, fun _ => rfl⟩, ?_⟩
      intro text w hlongest
      exact absurd ⟨text, w, hlongest.start, hlongest.numeral⟩ hnone
    | true =>
      obtain ⟨core, v, t, hbody, rfl, hcore, rfl, hbest⟩ := htakes.found rfl
      obtain ⟨blanks, sign, hcs, -⟩ := lead_body signs cs
      have htext : cs = blanks ++ sign ++ core ++ t := by
        rw [hbody] at hcs
        rw [hcs]
        simp
      have hnumeral := isNumeral_iff.mpr ⟨t, core, v, htext, hbody, hcore, rfl⟩
      refine ⟨⟨fun hsame => ?_, fun hno => absurd ⟨_, _, hnumeral⟩ hno⟩, ?_⟩
      · have hlen := congrArg length hsame
        have hpos := length_pos_iff.mpr hcore.ne_nil
        rw [if_pos rfl, htext] at hlen
        simp only [length_append] at hlen
        omega
      · intro text w hlongest
        obtain ⟨t', core', v', htext', hbody', hcore', rfl⟩ := isNumeral_iff.mp ⟨hlongest.start, hlongest.numeral⟩
        have hle := hbest core' v' ⟨t', hbody'.symm⟩ hcore'
        have hge := hlongest.longest _ _ hnumeral.1 hnumeral.2
        have hsum := congrArg length (hbody.symm.trans hbody')
        have hsum' := congrArg length (htext.symm.trans htext')
        simp only [length_append] at hsum hsum' hge
        obtain ⟨rfl, rfl⟩ := append_inj (hbody.symm.trans hbody') (by omega)
        obtain rfl := hcore.unique hcore'
        refine ⟨?_, ?_⟩
        · rw [if_pos rfl, ← append_assoc, ← htext']
        · split_ifs
          · exact (hmod _).trans (Int.ModEq.neg (hmod v))
          · exact hmod v

/-- `strtol` and `strtoul` take the longest numeral, but for `0x` without a digit and, in
radix 0, for a zero that is the whole numeral. -/
theorem strtol_strtoul_accept_iff (radix : Int) (cs : List UInt8) :
    (Accepts true strtol radix cs ↔ ¬ Misread radix (body true cs)) ∧
    (Accepts false strtoul radix cs ↔ ¬ Misread radix (body false cs)) :=
  ⟨convert_accepts_iff wraps_toI64 toI64_emod, convert_accepts_iff wraps_mod fun z => Int.emod_emod_of_dvd z dvd_rfl⟩

/-- The string `0` is not taken for a number in radix 0, nor is the zero of `0xg` in radix 16. -/
theorem strtol_misses_zero : ¬ Accepts true strtol 0 [48] ∧ strtol [48, 0] 0 = some (0, [48, 0]) ∧
    ¬ Accepts false strtoul 16 [48, 120, 103] ∧
    strtoul [48, 120, 103, 0] 16 = some (0, [48, 120, 103, 0]) := by
  have hzero : Misread 0 (body true [48]) := .inr ⟨rfl, [], rfl, nofun⟩
  have hhex : Misread 16 (body false [48, 120, 103]) := by
    refine .inl ⟨.inr rfl, 120, [103], rfl, .inl rfl, ?_⟩
    intro d hd
    rw [← some.inj hd]
    decide
  have hsigned : Accepts true strtol 0 [48] ↔ ¬ Misread 0 (body true [48]) :=
    convert_accepts_iff wraps_toI64 toI64_emod
  have hunsigned : Accepts false strtoul 16 [48, 120, 103] ↔ ¬ Misread 16 (body false [48, 120, 103]) :=
    convert_accepts_iff wraps_mod fun z => Int.emod_emod_of_dvd z dvd_rfl
  exact ⟨fun h => hsigned.mp h hzero, by decide +kernel, fun h => hunsigned.mp h hhex, by decide +kernel⟩

end Comus.Klib
