import Comus.Fs.Lookup
import Comus.Lib.Text

/-!
# Numbers and text (kernel/lib: itoc.c, uxtoa.c, xtoa.c, strtoux.c, strtox.c)

A function that writes gets the memory and returns it. A function that reads gets the
bytes from its pointer to the end of the mapped memory: a pointer into them is what is
left of the list, and `none` is a read behind its end. `none` is also a division by zero
or a loop that does not end.
-/

namespace Comus.Klib

open Word Bytes Numeral Function
open Fs (ctoi isspace)

/-- Characters are bytes: the sum is converted to `char`. -/
def itoc (i : Int) : UInt8 := if i < 10 then UInt8.ofInt (48 + i) else UInt8.ofInt (97 + (i - 10))

/-- `for (; n; n /= radix) *buffer++ = itoc(n % radix);`. A number of 64 bits has at most
64 digits. -/
def putDigits (radix : Int) : Nat → Int → Nat → Memory → Option (Nat × Memory)
  | fuel, n, buffer, m =>
    if n = 0 then some (buffer, m)
    else if radix = 0 then none
    else
      match fuel with
      | 0 => none
      | fuel + 1 =>
        putDigits radix fuel (n.tdiv radix) (buffer + 1) (update m buffer (itoc (toI32 (n.tmod radix))))

def putNumber (radix n : Int) (start : Nat) (m : Memory) : Option (Nat × Memory) := do
  let (bufEnd, m) ← putDigits radix 64 n start m
  some (bufEnd, reverseIn (update m bufEnd 0) (bufEnd - start) start (bufEnd - 1))

/-- `UXTOA`: the radix is converted to the unsigned type of `bits` bits. -/
def uxtoa (bits n : Nat) (buffer : Nat) (radix : Int) (m : Memory) : Option (Nat × Memory) :=
  if n = 0 then some (buffer + 1, update (update m buffer 48) (buffer + 1) 0)
  else putNumber (radix % 2^bits) n buffer m

/-- `XTOA`: `cast` is the conversion to the signed type. -/
def xtoa (cast : Int → Int) (n : Int) (buffer : Nat) (radix : Int) (m : Memory) : Option (Nat × Memory) :=
  if n = 0 then some (buffer + 1, update (update m buffer 48) (buffer + 1) 0)
  else if n < 0 then putNumber radix (cast (-n)) (buffer + 1) (update m buffer 45)
  else putNumber radix n buffer m

def ultoa : Nat → Nat → Int → Memory → Option (Nat × Memory) := uxtoa 64
def ulltoa : Nat → Nat → Int → Memory → Option (Nat × Memory) := uxtoa 64
def lltoa : Int → Nat → Int → Memory → Option (Nat × Memory) := xtoa toI64

def skipSpace : List UInt8 → Option (List UInt8)
  | [] => none
  | c :: s => if isspace c then skipSpace s else some (c :: s)

def takeSign : List UInt8 → Bool × List UInt8
  | [] => (false, [])
  | c :: s => if c = 45 then (true, s) else if c = 43 then (false, s) else (false, c :: s)

def takeRadix (radix : Int) (s : List UInt8) : Option (Int × List UInt8) :=
  if radix = 0 ∨ radix = 16 then
    match s with
    | [] => none
    | c :: t =>
      if c = 48 then
        match t with
        | [] => none
        | x :: u =>
          if x = 120 ∨ x = 88 then some (16, u)
          else if radix = 0 then some (8, t)
          else some (radix, s)
      else if radix = 0 then some (10, s)
      else some (radix, s)
  else some (radix, s)

/-- The digit loop: the number, `has_digit`, and the text from the character on that is no
digit. -/
def takeDigits (cast : Int → Int) (radix : Int) : List UInt8 → Int → Bool → Option (Int × Bool × List UInt8)
  | [], _, _ => none
  | c :: s, num, hasDigit =>
    if ctoi c < 0 ∨ ctoi c ≥ radix then some (num, hasDigit, c :: s)
    else takeDigits cast radix s (cast (num * radix + ctoi c)) true

def takeNumber (cast : Int → Int) (radix : Int) (s : List UInt8) : Option (Int × Bool × List UInt8) := do
  let (radix, s) ← takeRadix radix s
  takeDigits cast radix s 0 false

/-- `STRTOUX`: the number and `*endptr`; `cast` is the conversion to the unsigned type. -/
def strtoux (cast : Int → Int) (s : List UInt8) (radix : Int) : Option (Int × List UInt8) := do
  let t ← skipSpace s
  let (num, hasDigit, t) ← takeNumber cast radix t
  some (num, if hasDigit then t else s)

def strtox (cast : Int → Int) (s : List UInt8) (radix : Int) : Option (Int × List UInt8) := do
  let t ← skipSpace s
  let (sign, t) := takeSign t
  let (num, hasDigit, t) ← takeNumber cast radix t
  some (if sign then cast (-num) else num, if hasDigit then t else s)

def strtoul : List UInt8 → Int → Option (Int × List UInt8) := strtoux (· % 2^64)
def strtoull : List UInt8 → Int → Option (Int × List UInt8) := strtoux (· % 2^64)
def strtol : List UInt8 → Int → Option (Int × List UInt8) := strtox toI64
def strtoll : List UInt8 → Int → Option (Int × List UInt8) := strtox toI64

def numeral (radix n : Nat) : List UInt8 :=
  if n = 0 then [48] else ((Nat.digits radix n).map fun d : Nat => itoc d).reverse

def IsDigit (radix : Int) (c : UInt8) : Prop := 0 ≤ ctoi c ∧ ctoi c < radix

instance (radix : Int) (c : UInt8) : Decidable (IsDigit radix c) := by
  unfold IsDigit
  infer_instance

theorem ctoi_itoc {d : Nat} (hd : d < 36) : ctoi (itoc d) = d := by
  revert d
  decide

theorem ctoi_itoc_neg {d : Nat} (hd : d < 36) (hpos : 0 < d) : ctoi (itoc (-d)) = -1 := by
  revert d
  decide

theorem isDigit_itoc {radix d : Nat} (hd : d < radix) (hr : radix ≤ 36) : IsDigit radix (itoc d) := by
  unfold IsDigit
  rw [ctoi_itoc (by omega)]
  omega

theorem toI32_of_small {z : Int} (h0 : -2^31 ≤ z) (h : z < 2^31) : toI32 z = z := by
  unfold toI32
  split_ifs <;> omega

end Comus.Klib
