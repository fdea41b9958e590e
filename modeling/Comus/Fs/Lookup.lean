import Comus.Fs.Tar

/-!
# Looking up a file (kernel/fs/tar.c, kernel/lib)

A header is the list of its 512 bytes, a path the list of the characters in
front of its terminating null. `findFile` walks from header to header; `none`
says that the walk has not ended within its fuel.
-/

namespace Comus.Fs

open Word

/-- Bytes behind the end of a list are read as zero. -/
def memcmp : List UInt8 → List UInt8 → Nat → Int
  | _, _, 0 => 0
  | l, r, n + 1 =>
    if l.headD 0 = r.headD 0 then memcmp l.tail r.tail n
    else ((l.headD 0).toNat : Int) - (r.headD 0).toNat

def ctoi (c : UInt8) : Int :=
  if 48 ≤ c.toNat ∧ c.toNat ≤ 57 then (c.toNat : Int) - 48
  else if 65 ≤ c.toNat ∧ c.toNat ≤ 90 then (c.toNat : Int) - 65 + 10
  else if 97 ≤ c.toNat ∧ c.toNat ≤ 122 then (c.toNat : Int) - 97 + 10
  else -1

def isspace (c : UInt8) : Bool := decide (c = 32 ∨ c = 9 ∨ c = 11 ∨ c = 12 ∨ c = 13 ∨ c = 10)

/-- The digit loop of `strtoull`; the end of the list stands for a null. -/
def strtoullDigits (radix : Nat) : List UInt8 → Nat → Nat
  | [], num => num
  | c :: s, num =>
    if ctoi c < 0 ∨ ctoi c ≥ radix then num
    else strtoullDigits radix s (u64 (num * radix + (ctoi c).toNat))

def strtoull (s : List UInt8) (radix : Nat) : Nat :=
  let s := s.dropWhile isspace
  if (radix = 0 ∨ radix = 16) ∧ s.headD 0 = 48 ∧ (s.tail.headD 0 = 120 ∨ s.tail.headD 0 = 88) then
    strtoullDigits 16 (s.drop 2) 0
  else if radix = 0 then
    if s.headD 0 = 48 then strtoullDigits 8 s.tail 0 else strtoullDigits 10 s 0
  else strtoullDigits radix s 0

def sizeField : Nat := 124
def magicField : Nat := 257
def versionField : Nat := 263

def TMAGIC : List UInt8 := [117, 115, 116, 97, 114, 0]

def TVERSION : List UInt8 := [48, 48]

/-- The sector is a 32-bit number and so is the offset computed from it; `none` is
`ERROR_TAR`. -/
def readTarHeader (disk : Disk) (sect : Nat) : Option (List UInt8) :=
  let r := disk.read (sect % 2^32 * TAR_SIZE % 2^32) TAR_SIZE
  if r.1 < TAR_SIZE then none
  else if memcmp (r.2.drop magicField) TMAGIC 6 ≠ 0 ∨
      memcmp (r.2.drop versionField) TVERSION 2 ≠ 0 then none
  else some r.2

def fileSize (hdr : List UInt8) : Nat := strtoull (hdr.drop sizeField) 8

def nextSect (hdr : List UInt8) (currSect : Nat) : Nat :=
  u64 (currSect + (u64 (fileSize hdr + TAR_SIZE - 1) / TAR_SIZE + 1))

def findFile (disk : Disk) (path : List UInt8) : Nat → Nat → Option (Option (List UInt8 × Nat))
  | 0, _ => none
  | fuel + 1, currSect =>
    match readTarHeader disk currSect with
    | none => some none
    | some hdr =>
      if memcmp hdr (path ++ [0]) (path.length + 1) ≠ 0 then
        findFile disk path fuel (nextSect hdr currSect)
      else some (some (hdr, currSect))

end Comus.Fs
