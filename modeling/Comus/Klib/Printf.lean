import Comus.Klib.Numbers

/-!
# Formatted output (kernel/lib/kprintf.c)

The format is the list of bytes from the format pointer to the end of the mapped memory,
as in the number parsers. One round of the loop of `do_printf` reads a character or a
directive and has one effect on the context. The functions of user/lib/printf.c differ
only in where a character goes when it is not written to a buffer.
-/

namespace Comus.Printf

open Word Bytes Klib List

inductive PrintfLen
  | char | shortInt | int | longInt | longLongInt | sizeT
deriving DecidableEq

/-- `options_t`; the defaults are those of `{ 0 }`. -/
structure Options where
  left : Bool := false
  sign : Bool := false
  space : Bool := false
  hash : Bool := false
  zero : Bool := false
  width : Int := 0
  precision : Int := 0
  widthSet : Bool := false
  widthVaries : Bool := false
  precisionSet : Bool := false
  precisionVaries : Bool := false
  len : PrintfLen := .char
  radix : Nat := 0
  isUppercase : Bool := false
deriving DecidableEq

def parseFlag (c : UInt8) (opts : Options) : Option Options :=
  if c = 45 then some { opts with left := true }
  else if c = 43 then some { opts with sign := true }
  else if c = 32 then some { opts with space := true }
  else if c = 35 then some { opts with hash := true }
  else if c = 48 then some { opts with zero := true }
  else none

def parseFlags : List UInt8 → Options → Option (Options × List UInt8)
  | [], _ => none
  | c :: fmt, opts =>
    match parseFlag c opts with
    | some opts => parseFlags fmt opts
    | none => some (opts, c :: fmt)

/-- The part that `parse_width` and `parse_precision` share: an asterisk, here `none`, or a
number. `strtol` always stores an end, so the branch without a number is never left out. -/
def parseField : List UInt8 → Option (Option Int × List UInt8)
  | [] => none
  | c :: fmt =>
    if c = 42 then some (none, fmt)
    else (strtol (c :: fmt) 10).map fun r => (some (toI32 r.1), r.2)

def parseWidth (fmt : List UInt8) (opts : Options) : Option (Options × List UInt8) :=
  (parseField fmt).map fun r =>
    match r.1 with
    | none => ({ opts with widthVaries := true }, r.2)
    | some width => ({ opts with widthSet := true, width := width }, r.2)

def parsePrecision (fmt : List UInt8) (opts : Options) : Option (Options × List UInt8) :=
  match fmt with
  | [] => none
  | c :: rest =>
    if c ≠ 46 then some (opts, fmt)
    else
      (parseField rest).map fun r =>
        match r.1 with
        | none => ({ opts with precisionVaries := true }, r.2)
        | some precision => ({ opts with precisionSet := true, precision := precision }, r.2)

def parseDouble (letter : UInt8) (one two : PrintfLen) (fmt : List UInt8) (opts : Options) :
    Option (Options × List UInt8) :=
  match fmt with
  | [] => none
  | c :: rest => if c = letter then some ({ opts with len := two }, rest) else some ({ opts with len := one }, fmt)

def parseLength (fmt : List UInt8) (opts : Options) : Option (Options × List UInt8) :=
  match fmt with
  | [] => none
  | c :: rest =>
    if c = 104 then parseDouble 104 .shortInt .char rest opts
    else if c = 108 then parseDouble 108 .longInt .longLongInt rest opts
    else if c = 122 then some ({ opts with len := .sizeT }, rest)
    else some ({ opts with len := .int }, fmt)

def parseOptions (fmt : List UInt8) : Option (Options × List UInt8) := do
  let (opts, fmt) ← parseFlags fmt {}
  let (opts, fmt) ← parseWidth fmt opts
  parsePrecision fmt opts

def parseDirective (fmt : List UInt8) : Option (Options × UInt8 × List UInt8) := do
  let (opts, fmt) ← parseOptions fmt
  let (opts, fmt) ← parseLength fmt opts
  match fmt with
  | [] => none
  | spec :: fmt => some (opts, spec, fmt)

def getRadix (spec : UInt8) (opts : Options) : Options :=
  { opts with
    radix := if spec = 120 ∨ spec = 88 then 16 else if spec = 111 then 8 else if spec = 98 then 2 else 10 }

def getCase (spec : UInt8) (opts : Options) : Options :=
  if spec = 88 then { opts with isUppercase := true } else opts

def printfNumericBufLen : Nat := 50

def printfItoc (uppercase : Bool) (i : Nat) : UInt8 :=
  if i < 10 then UInt8.ofNat (i + 48)
  else if uppercase then UInt8.ofNat (i - 10 + 65)
  else UInt8.ofNat (i - 10 + 97)

/-- The digits that the loops of `printf_lltoa` see, which stop at the precision. The
counter is `precision`; a number of 64 bits has at most 64 digits. -/
def lltoaRounds (opts : Options) : Nat → Int → Nat → List Nat
  | 0, _, _ => []
  | fuel + 1, precision, num =>
    if num = 0 then []
    else if opts.precisionSet ∧ precision ≥ opts.precision then []
    else num % opts.radix :: lltoaRounds opts fuel (precision + 1) (num / opts.radix)

def lltoaDigits (opts : Options) (num : Nat) : List UInt8 :=
  if num = 0 then [48] else (lltoaRounds opts 64 0 num).map (printfItoc opts.isUppercase)

def lltoaZeros (opts : Options) (len : Int) : List UInt8 :=
  if opts.widthSet ∧ len < opts.width ∧ opts.zero then replicate (opts.width - len).toNat 48 else []

def lltoaRadix (opts : Options) : List UInt8 :=
  if opts.hash then
    if opts.radix = 2 then [98, 48]
    else if opts.radix = 8 then [111, 48]
    else if opts.radix = 16 then [120, 48]
    else []
  else []

def lltoaSign (opts : Options) (isNeg : Bool) : List UInt8 :=
  if isNeg then [45] else if opts.sign then [43] else if opts.space then [32] else []

def printfLltoa (opts : Options) (isNeg : Bool) (num : Nat) : List UInt8 :=
  lltoaDigits opts num ++ lltoaZeros opts (lltoaDigits opts num).length ++ lltoaRadix opts ++
    lltoaSign opts isNeg ++ [0]

/-- What one round of the loop does: characters for `printf_putc`, a store of the count, or
a numeral that runs over its buffer. What is printed in the last case is not modelled. -/
inductive Effect
  | chars (cs : List UInt8)
  | count (bad : Nat)
  | smash
deriving DecidableEq

/-- The padding of a text of `strLen` characters; the difference is an `int`. -/
def padding (opts : Options) (strLen : Int) : Nat :=
  if opts.widthSet ∧ strLen < opts.width then (toI32 (opts.width - strLen)).toNat else 0

def justify (opts : Options) (pad : UInt8) (strLen : Int) (body : List UInt8) : List UInt8 :=
  if opts.left then body ++ replicate (padding opts strLen) pad
  else replicate (padding opts strLen) pad ++ body

/-- The buffer is emitted from its end, with the terminator that `buf_len` counts. -/
def handleIntSpecifier (opts : Options) (hasSignBit : Bool) (num : Nat) : Effect :=
  let isNeg := hasSignBit && decide (toI64 num < 0)
  let buf := printfLltoa opts isNeg (if isNeg then toU64 (-(toI64 num)) else num)
  if printfNumericBufLen < buf.length then .smash
  else .chars (justify opts (if opts.zero then 48 else 32) buf.length buf.reverse)

def handleCharSpecifier (c : UInt8) : Effect := .chars [c]

def strlen : List UInt8 → Option Nat
  | [] => none
  | c :: s => if c = 0 then some 0 else (strlen s).map (· + 1)

/-- `str` is the memory from the string on; `none` is a read behind its end. -/
def handleStringSpecifier (opts : Options) (str : List UInt8) : Option (List UInt8) := do
  let strLen ← if opts.precisionSet then some opts.precision else (strlen str).map fun n : Nat => toI32 n
  if strLen.toNat ≤ str.length then some (justify opts 32 strLen (str.take strLen.toNat)) else none

/-- The arguments of a call, one 64-bit slot each, and the mapped memory from an address on. -/
structure Env where
  args : Nat → Nat
  text : Nat → List UInt8

def nullText : List UInt8 := [40, 110, 117, 108, 108, 41, 0]

def Env.string (E : Env) (str : Nat) : List UInt8 := if str = 0 then nullText else E.text str

def readVaried (E : Env) (opts : Options) (i : Nat) : Options × Nat :=
  let r := if opts.widthVaries then ({ opts with widthSet := true, width := toI32 (E.args i) }, i + 1) else (opts, i)
  if r.1.precisionVaries then
    ({ r.1 with precisionSet := true, precision := toI32 (E.args r.2) }, r.2 + 1)
  else r

/-- `data.u = va_arg(args, …)`: the three small sizes are all read as `unsigned int`. -/
def readNumber (E : Env) (len : PrintfLen) (i : Nat) : Nat :=
  match len with
  | .char | .shortInt | .int => E.args i % 2^32
  | .longInt | .longLongInt | .sizeT => E.args i % 2^64

inductive Specifier
  | pointer | signed | unsigned | character | string | count | unknown
deriving DecidableEq

def Specifier.of (spec : UInt8) : Specifier :=
  if spec = 112 then .pointer
  else if spec = 100 ∨ spec = 105 then .signed
  else if spec = 117 ∨ spec = 98 ∨ spec = 111 ∨ spec = 120 ∨ spec = 88 then .unsigned
  else if spec = 99 then .character
  else if spec = 115 then .string
  else if spec = 110 then .count
  else .unknown

def pointerOptions (opts : Options) : Options :=
  { opts with len := .sizeT, widthSet := true, width := 16, radix := 16, hash := true, zero := true }

/-- The two switches: the effect and the number of arguments read. `source` is the text of
the directive. -/
def handle (E : Env) (opts : Options) (spec : UInt8) (source : List UInt8) (i : Nat) : Option (Effect × Nat) :=
  match Specifier.of spec with
  | .pointer =>
    some (handleIntSpecifier (pointerOptions opts) false (readNumber E (pointerOptions opts).len i), i + 1)
  | .signed => some (handleIntSpecifier opts true (readNumber E opts.len i), i + 1)
  | .unsigned => some (handleIntSpecifier opts false (readNumber E opts.len i), i + 1)
  | .character => some (handleCharSpecifier (UInt8.ofNat (E.args i)), i + 1)
  | .string => (handleStringSpecifier opts (E.string (E.args i % 2^64))).map fun cs => (.chars cs, i + 1)
  | .count => some (.count (E.args i % 2^64), i + 1)
  | .unknown => some (.chars source, i)

def finalOptions (E : Env) (opts : Options) (spec : UInt8) (i : Nat) : Options × Nat :=
  readVaried E (getCase spec (getRadix spec opts)) i

def direct (E : Env) (opts : Options) (spec : UInt8) (source : List UInt8) (i : Nat) : Option (Effect × Nat) :=
  handle E (finalOptions E opts spec i).1 spec source (finalOptions E opts spec i).2

/-- A read behind the mapped memory: of the format, or of a string argument. -/
inductive Fault
  | format | string
deriving DecidableEq

/-- One round: `none` at the terminator, else the effect, the rest of the format and the
number of arguments read. -/
def round (E : Env) (fmt : List UInt8) (i : Nat) : Except Fault (Option (Effect × List UInt8 × Nat)) :=
  match fmt with
  | [] => .error .format
  | c :: rest =>
    if c = 0 then .ok none
    else if c ≠ 37 then .ok (some (.chars [c], rest, i))
    else
      match parseDirective rest with
      | none => .error .format
      | some (opts, spec, rest) =>
        match direct E opts spec (fmt.take (fmt.length - rest.length)) i with
        | none => .error .string
        | some (effect, i) => .ok (some (effect, rest, i))

/-- `context_t`, with the memory, the characters sent to the console, and whether a numeral
has run over its buffer. -/
structure Context where
  maxLen : Nat := 0
  hasMaxLen : Bool := false
  writtenLen : Nat := 0
  possibleWrittenLen : Nat := 0
  sprintf : Bool := false
  sprintfBuf : Nat := 0
  mem : Memory
  console : List UInt8 := []
  smashed : Bool := false

def printfPutc (ctx : Context) (c : UInt8) : Context :=
  let ctx := { ctx with possibleWrittenLen := u64 (ctx.possibleWrittenLen + 1) }
  if ctx.hasMaxLen ∧ ctx.writtenLen ≥ ctx.maxLen then ctx
  else if ctx.sprintf then
    { ctx with
      mem := Function.update ctx.mem ctx.sprintfBuf c
      sprintfBuf := ctx.sprintfBuf + 1
      writtenLen := u64 (ctx.writtenLen + 1) }
  else { ctx with console := ctx.console ++ [c], writtenLen := u64 (ctx.writtenLen + 1) }

def intBytes (n : Nat) : List UInt8 := (range 4).map fun k => UInt8.ofNat (n / 256 ^ k)

def Context.apply (ctx : Context) : Effect → Context
  | .chars cs => cs.foldl printfPutc ctx
  | .count bad => { ctx with mem := write ctx.mem bad (intBytes ctx.writtenLen) }
  | .smash => { ctx with smashed := true }

/-- The loop of `do_printf`. Every round reads at least one character of the format. -/
def rounds (E : Env) : Nat → List UInt8 → Nat → Context → Except Fault Context
  | 0, _, _, _ => .error .format
  | fuel + 1, fmt, i, ctx =>
    match round E fmt i with
    | .error fault => .error fault
    | .ok none => .ok ctx
    | .ok (some (effect, rest, i)) => rounds E fuel rest i (ctx.apply effect)

/-- The terminator of `sprintf`; the two lengths are kept in an `int` meanwhile. -/
def terminate (ctx : Context) : Context :=
  if ctx.sprintf then
    { printfPutc ctx 0 with
      writtenLen := toU64 (toI32 ctx.writtenLen)
      possibleWrittenLen := toU64 (toI32 ctx.possibleWrittenLen) }
  else ctx

def doPrintf (E : Env) (fmt : List UInt8) (ctx : Context) : Except Fault Context :=
  (rounds E fmt.length fmt 0 ctx).map terminate

def kvprintf (E : Env) (fmt : List UInt8) (m : Memory) : Except Fault (Int × Context) :=
  (doPrintf E fmt { mem := m }).map fun ctx => (toI32 ctx.writtenLen, ctx)

def kvsprintf (E : Env) (s : Nat) (fmt : List UInt8) (m : Memory) : Except Fault (Int × Context) :=
  (doPrintf E fmt { mem := m, sprintfBuf := s, sprintf := true }).map fun ctx => (toI32 ctx.writtenLen, ctx)

def kvsnprintf (E : Env) (s maxlen : Nat) (fmt : List UInt8) (m : Memory) : Except Fault (Int × Context) :=
  (doPrintf E fmt { mem := m, sprintfBuf := s, sprintf := true, hasMaxLen := true, maxLen := maxlen }).map
    fun ctx => (toI32 ctx.possibleWrittenLen, ctx)

/-- The variadic functions only collect their arguments. -/
def ksprintf (E : Env) : Nat → List UInt8 → Memory → Except Fault (Int × Context) := kvsprintf E

end Comus.Printf
