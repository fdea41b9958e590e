import Comus.Lib.Word

/-!
# Open files of the tar file system (kernel/fs/fs.c, kernel/fs/tar.c)

A read stores bytes at the start of a buffer and returns an `int`. The two are
kept apart: error codes of these layers are positive, so that the returned
number does not say how many bytes were stored.
-/

namespace Comus.Fs

open Word

/-- A disk as `disk_read` shows it: for an offset and a length the returned number and
the bytes stored. -/
structure Disk where
  read : Nat → Nat → Int × List UInt8
  bounded : ∀ offset len, (read offset len).2.length ≤ len

def negBadParam : Int := 2

def diskReadRd (data : List UInt8) (offset len : Nat) : Int × List UInt8 :=
  if data.length ≤ offset then (negBadParam, [])
  else
    let len := if data.length - offset < len then data.length - offset else len
    (toI32 len, (data.drop offset).take len)

def ramdisk (data : List UInt8) : Disk where
  read := diskReadRd data
  bounded := by
    intro offset len
    unfold diskReadRd
    split_ifs with h hlen
    · exact Nat.zero_le _
    · exact (List.length_take_le _ _).trans hlen.le
    · exact List.length_take_le _ _

inductive FileType where
  | reg | dir
  deriving Repr, DecidableEq

/-- `struct tar_file`; `sect` is the sector of the header. -/
structure TarFile where
  type : FileType
  len : Nat
  offset : Nat
  sect : Nat
  deriving Repr, DecidableEq

def TAR_SIZE : Nat := 512
def ERROR_TAR : Int := 1

/-- `tar_read`: the returned number, the bytes stored and the file with its new offset.
The remaining length is unsigned, so that it is huge behind the end of the file. -/
def tarRead (disk : Disk) (f : TarFile) (len : Nat) : Int × List UInt8 × TarFile :=
  let size := toI64 (min (sub64 f.len f.offset) len)
  if f.type ≠ .reg ∨ size < 1 then (ERROR_TAR, [], f)
  else
    let (size, bytes) := disk.read (u64 ((f.sect + 1) * TAR_SIZE + f.offset)) size.toNat
    (size, bytes, { f with offset := toU64 (f.offset + size) })

theorem tarRead_length_le (disk : Disk) (f : TarFile) (len : Nat) :
    (tarRead disk f len).2.1.length ≤ len := by
  unfold tarRead
  dsimp only
  split_ifs with h
  · exact Nat.zero_le _
  · refine (disk.bounded _ _).trans ?_
    unfold toI64
    omega

def SEEK_SET : Int := 0
def SEEK_CUR : Int := 1
def SEEK_END : Int := 2

/-- `tar_seek`; the new offset is returned as an `int`. -/
def tarSeek (f : TarFile) (offsetAdd whence : Int) : Int × TarFile :=
  if whence = SEEK_SET then
    (toI32 (toU64 offsetAdd), { f with offset := toU64 offsetAdd })
  else if whence = SEEK_CUR then
    (toI32 (toU64 (f.offset + offsetAdd)), { f with offset := toU64 (f.offset + offsetAdd) })
  else if whence = SEEK_END then
    (toI32 (toU64 (f.len + offsetAdd)), { f with offset := toU64 (f.len + offsetAdd) })
  else (-1, f)

def O_RDONLY : Int := 2

/-- The object `tar_open` builds from what `find_file` left in its variables, also where
it found nothing; `none` is `ERROR_TAR`. -/
def tarOpen (flags : Int) (len sect : Nat) : Option TarFile :=
  if flags ≠ O_RDONLY then none else some ⟨.reg, len, 0, sect⟩

end Comus.Fs
