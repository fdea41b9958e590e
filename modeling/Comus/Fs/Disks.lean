import Comus.Fs.Tar

/-!
# Disks (kernel/fs/fs.c)

A disk is a memory area or an ATA drive. The ATA functions go through a bounce
buffer that each of them keeps between its calls. The memory from the start of
that buffer on is a function of the index, so that a copy past its end is a copy
like any other; `reach` records how far a write has gone. The codes of `error.h`
are negative already, and negated once more before they are returned.
-/

namespace Comus.Fs

open Word

def ATA_SECT_SIZE : Nat := 512

def negNoMemory : Int := 5

inductive IdeError where
  | ok | nullDevice | initNoIdeController | initBadHeader | pollDriveRequestNotReady
  | pollDeviceFault | pollStatusRegisterError | pollWriteProtected | unimplemented
  deriving Repr, DecidableEq

def IdeError.code : IdeError → Int
  | .ok => 0
  | .nullDevice => 1
  | .initNoIdeController => 2
  | .initBadHeader => 3
  | .pollDriveRequestNotReady => 4
  | .pollDeviceFault => 5
  | .pollStatusRegisterError => 6
  | .pollWriteProtected => 7
  | .unimplemented => 8

/-- An ATA drive: its bytes and `size_in_sectors`, a 32-bit number. -/
structure Ide where
  data : Nat → UInt8
  sectors : Nat
  sectors_lt : sectors < 2^32

/-- `struct disk`, with the contents of the device; the last case is any other `d_type`. -/
inductive Drive where
  | ramdisk (data : List UInt8)
  | ata (dev : Ide)
  | invalid

/-- The static variables `atabuf_len` and `atabuf`; `none` is the null pointer. -/
structure Bounce where
  len : Nat
  mem : Option (Nat → UInt8)

/-- What the heap and the drive answer during one call: the memory `krealloc` finds, and
the errors of the two transfers. A write that fails may have changed the drive. -/
structure Answer where
  alloc : Option (Nat → UInt8)
  readError : IdeError
  writeError : IdeError
  left : Nat → UInt8

/-- The buffer is enlarged if it is too small. No memory of length zero is ever found. -/
def Bounce.grow (b : Bounce) (size : Nat) (alloc : Option (Nat → UInt8)) : Bounce :=
  if b.mem.isNone ∨ b.len < size then
    match if size = 0 then none else alloc with
    | none => { b with mem := none }
    | some mem => ⟨size, some mem⟩
  else b

/-- The numbers of sectors are 16 bits wide, those of the first sector 32. -/
def ideDeviceReadSectors (dev : Ide) (error : IdeError) (numsects lba : Nat) (buf : Nat → UInt8) :
    IdeError × (Nat → UInt8) :=
  let numsects := numsects % 2^16
  let lba := lba % 2^32
  if (lba + numsects) % 2^32 > dev.sectors then (.nullDevice, buf)
  else if error ≠ .ok then (error, buf)
  else (.ok, fun i => if i < numsects * ATA_SECT_SIZE then dev.data (lba * ATA_SECT_SIZE + i) else buf i)

def ideDeviceWriteSectors (dev : Ide) (error : IdeError) (left : Nat → UInt8) (numsects lba : Nat)
    (buf : Nat → UInt8) : IdeError × Ide :=
  let numsects := numsects % 2^16
  let lba := lba % 2^32
  if (lba + numsects) % 2^32 > dev.sectors then (.nullDevice, dev)
  else if error ≠ .ok then (error, { dev with data := left })
  else
    let data := fun a =>
      if lba * ATA_SECT_SIZE ≤ a ∧ a < (lba + numsects) * ATA_SECT_SIZE then
        buf (a - lba * ATA_SECT_SIZE)
      else dev.data a
    (.ok, { dev with data := data })

/-- The returned number, the bytes stored at the start of the buffer, and the bounce buffer. -/
structure ReadResult where
  ret : Int
  bytes : List UInt8
  bounce : Bounce

/-- The sectors of a read cover the misalignment of its offset. -/
def readSectors (offset len : Nat) : Nat :=
  u64 (len + offset % ATA_SECT_SIZE + ATA_SECT_SIZE - 1) / ATA_SECT_SIZE % 2^32

def diskReadAta (dev : Ide) (b : Bounce) (a : Answer) (offset len : Nat) : ReadResult :=
  let err := offset % ATA_SECT_SIZE
  let numsects := readSectors offset len
  let b := b.grow (numsects * ATA_SECT_SIZE % 2^32) a.alloc
  match b.mem with
  | none => ⟨negNoMemory, [], b⟩
  | some mem =>
    let r := ideDeviceReadSectors dev a.readError numsects (offset / ATA_SECT_SIZE) mem
    let b := { b with mem := some r.2 }
    if r.1 ≠ .ok then ⟨r.1.code, [], b⟩
    else ⟨toI32 len, (List.range len).map fun i => r.2 (err + i), b⟩

def diskRead (d : Drive) (b : Bounce) (a : Answer) (offset len : Nat) : ReadResult :=
  match d with
  | .ramdisk data => ⟨(diskReadRd data offset len).1, (diskReadRd data offset len).2, b⟩
  | .ata dev => diskReadAta dev b a offset len
  | .invalid => ⟨negBadParam, [], b⟩

structure WriteResult where
  ret : Int
  disk : Drive
  bounce : Bounce
  /-- How many bytes of the bounce buffer the copy needs. -/
  reach : Nat

def diskWriteRd (data : List UInt8) (offset : Nat) (buffer : List UInt8) : Int × List UInt8 :=
  if data.length ≤ offset then (negBadParam, data)
  else
    let len := if data.length - offset < buffer.length then data.length - offset else buffer.length
    (toI32 len, data.take offset ++ buffer.take len ++ data.drop (offset + len))

/-- The sectors of a write, which do not cover the misalignment. -/
def writeSectors (len : Nat) : Nat := u64 (len + ATA_SECT_SIZE - 1) / ATA_SECT_SIZE % 2^32

def copyInto (mem : Nat → UInt8) (err : Nat) (buffer : List UInt8) : Nat → UInt8 := fun i =>
  if err ≤ i ∧ i < err + buffer.length then buffer.getD (i - err) 0 else mem i

def diskWriteAta (dev : Ide) (b : Bounce) (a : Answer) (offset : Nat) (buffer : List UInt8) :
    WriteResult :=
  let err := offset % ATA_SECT_SIZE
  let numsects := writeSectors buffer.length
  let b := b.grow (numsects * ATA_SECT_SIZE % 2^32) a.alloc
  match b.mem with
  | none => ⟨negNoMemory, .ata dev, b, 0⟩
  | some mem =>
    let r := ideDeviceReadSectors dev a.readError numsects (offset / ATA_SECT_SIZE) mem
    if r.1 ≠ .ok then ⟨r.1.code, .ata dev, { b with mem := some r.2 }, 0⟩
    else
      let mem := copyInto r.2 err buffer
      let reach := if buffer.length = 0 then 0 else err + buffer.length
      let w := ideDeviceWriteSectors dev a.writeError a.left numsects (offset / ATA_SECT_SIZE) mem
      let b := { b with mem := some mem }
      if w.1 ≠ .ok then ⟨w.1.code, .ata w.2, b, reach⟩
      else ⟨toI32 buffer.length, .ata w.2, b, reach⟩

def diskWrite (d : Drive) (b : Bounce) (a : Answer) (offset : Nat) (buffer : List UInt8) :
    WriteResult :=
  match d with
  | .ramdisk data => ⟨(diskWriteRd data offset buffer).1, .ramdisk (diskWriteRd data offset buffer).2, b, 0⟩
  | .ata dev => diskWriteAta dev b a offset buffer
  | .invalid => ⟨negBadParam, .invalid, b, 0⟩

def Drive.size : Drive → Nat
  | .ramdisk data => data.length
  | .ata dev => dev.sectors * ATA_SECT_SIZE
  | .invalid => 0

def Drive.byte : Drive → Nat → UInt8
  | .ramdisk data, a => data.getD a 0
  | .ata dev, a => dev.data a
  | .invalid, _ => 0

end Comus.Fs
