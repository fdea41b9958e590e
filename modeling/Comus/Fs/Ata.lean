import Mathlib.Data.Fin.VecNotation
import Comus.Lib.BitField
import Comus.Fs.Disks

/-!
# The registers of an ATA drive (kernel/drivers/ata.c)

The driver writes the parameters of a transfer to the ports of a channel. The drive
keeps the last two bytes written to each of its four parameter registers and reads
them when a command arrives; which of them it reads, and how, depends on the command
and on one bit of the device register.
-/

namespace Comus.Fs

open BitField

inductive Port where
  | io (n : Nat) | control (n : Nat) | busMaster (n : Nat)
  deriving Repr, DecidableEq

structure Out where
  port : Port
  data : Nat
  deriving Repr, DecidableEq

def ATA_REG_SECCOUNT0 : Nat := 0x02
def ATA_REG_LBA0 : Nat := 0x03
def ATA_REG_LBA1 : Nat := 0x04
def ATA_REG_LBA2 : Nat := 0x05
def ATA_REG_HDDEVSEL : Nat := 0x06
def ATA_REG_COMMAND : Nat := 0x07
def ATA_REG_SECCOUNT1 : Nat := 0x08
def ATA_REG_LBA3 : Nat := 0x09
def ATA_REG_LBA4 : Nat := 0x0A
def ATA_REG_LBA5 : Nat := 0x0B
def ATA_REG_CONTROL : Nat := 0x0C

def ATA_CMD_READ_PIO : Nat := 0x20
def ATA_CMD_READ_PIO_EXT : Nat := 0x24
def ATA_CMD_WRITE_PIO : Nat := 0x30
def ATA_CMD_WRITE_PIO_EXT : Nat := 0x34
def ATA_CMD_CACHE_FLUSH : Nat := 0xE7
def ATA_CMD_CACHE_FLUSH_EXT : Nat := 0xEA

def channelOut (reg data : Nat) : List Out :=
  if reg < 0x08 then [⟨.io reg, data % 2^8⟩]
  else if reg < 0x0C then [⟨.io (reg - 0x06), data % 2^8⟩]
  else if reg < 0x0E then [⟨.control (reg - 0x0A), data % 2^8⟩]
  else if reg < 0x16 then [⟨.busMaster (reg - 0x0E), data % 2^8⟩]
  else []

/-- The registers from 8 on share the ports of the ones below, between two writes to the
control register. -/
def ideChannelWrite (noInterrupt reg data : Nat) : List Out :=
  let disableInterrupts := 0x07 < reg ∧ reg < 0x0C
  (if disableInterrupts then channelOut ATA_REG_CONTROL (0x80 ||| noInterrupt) else []) ++
    channelOut reg data ++
    (if disableInterrupts then channelOut ATA_REG_CONTROL noInterrupt else [])

/-- The fields of `struct ide_device` that an access reads. The function panics for a drive
other than 0 and 1. -/
structure IdeDevice where
  driveIdx : Fin 2
  features : Nat

def IdeDevice.SupportsLba (dev : IdeDevice) : Prop := dev.features &&& 0x200 ≠ 0

instance (dev : IdeDevice) : Decidable dev.SupportsLba := inferInstanceAs (Decidable (_ ≠ _))

inductive LbaMode where
  | chs | lba28 | lba48
  deriving Repr, DecidableEq

inductive AccessMode where
  | read | write
  deriving Repr, DecidableEq

def getAtaCmdForAccess : LbaMode → AccessMode → Nat
  | .chs, .read => ATA_CMD_READ_PIO
  | .lba28, .read => ATA_CMD_READ_PIO
  | .lba48, .read => ATA_CMD_READ_PIO_EXT
  | .chs, .write => ATA_CMD_WRITE_PIO
  | .lba28, .write => ATA_CMD_WRITE_PIO
  | .lba48, .write => ATA_CMD_WRITE_PIO_EXT

structure AccessParams where
  mode : LbaMode
  head : Nat
  lbaIo : Fin 6 → Nat

/-- `field lba 8 8` is `(lba & 0xFF00) >> 8`. The cylinder is a 16-bit number. -/
def accessParams (dev : IdeDevice) (lba numsects : Nat) : AccessParams :=
  if 0x10000000 ≤ lba ∨ 255 < numsects then
    ⟨.lba48, 0, ![field lba 0 8, field lba 8 8, field lba 16 8, field lba 24 8, 0, 0]⟩
  else if dev.SupportsLba then
    ⟨.lba28, field lba 24 4, ![field lba 0 8, field lba 8 8, field lba 16 8, 0, 0, 0]⟩
  else
    let sect := lba % 63 + 1
    let cylinder := (lba + 1 - sect) / (16 * 63) % 2^16
    ⟨.chs, (lba + 1 - sect) % (16 * 63) / 63, ![sect, field cylinder 0 8, field cylinder 8 8, 0, 0, 0]⟩

def AccessParams.select (p : AccessParams) (drive : Fin 2) : Nat :=
  match p.mode with
  | .chs => 0xA0 ||| drive.1 <<< 4 ||| p.head
  | .lba28 => 0xE0 ||| drive.1 <<< 4 ||| p.head
  | .lba48 => 0x40 ||| drive.1 <<< 4

def flushCommand : LbaMode → Nat
  | .chs => ATA_CMD_CACHE_FLUSH
  | .lba28 => ATA_CMD_CACHE_FLUSH
  | .lba48 => ATA_CMD_CACHE_FLUSH_EXT

/-- What `ide_device_ata_access` writes to the ports, but for the data of the sectors: they
follow the command, and a write ends with a flush. -/
def ideDeviceAtaAccess (dev : IdeDevice) (mode : AccessMode) (lba numsects : Nat) : List Out :=
  let p := accessParams dev lba numsects
  let out := ideChannelWrite 0x02
  out ATA_REG_CONTROL 0x02 ++ out ATA_REG_HDDEVSEL (p.select dev.driveIdx) ++
    (if p.mode = .lba48 then
      out ATA_REG_SECCOUNT1 (numsects / 2^8 % 2^8) ++ out ATA_REG_LBA3 (p.lbaIo 3) ++
        out ATA_REG_LBA4 (p.lbaIo 4) ++ out ATA_REG_LBA5 (p.lbaIo 5)
    else []) ++
    out ATA_REG_SECCOUNT0 (numsects % 2^8) ++ out ATA_REG_LBA0 (p.lbaIo 0) ++
    out ATA_REG_LBA1 (p.lbaIo 1) ++ out ATA_REG_LBA2 (p.lbaIo 2) ++
    out ATA_REG_COMMAND (getAtaCmdForAccess p.mode mode) ++
    match mode with
    | .read => []
    | .write => out ATA_REG_COMMAND (flushCommand p.mode)

structure Latch where
  last : Nat
  previous : Nat

def Latch.write (l : Latch) (data : Nat) : Latch := ⟨data, l.last⟩

structure TaskFile where
  count : Latch
  lba0 : Latch
  lba1 : Latch
  lba2 : Latch
  device : Nat

inductive Command where
  | transfer (mode : AccessMode) (lba count : Nat)
  | flush
  | other (code : Nat)
  deriving Repr, DecidableEq

/-- A count of zero stands for the largest one. -/
def sectorCount (n max : Nat) : Nat := if n = 0 then max else n

def TaskFile.chsSector (t : TaskFile) : Nat :=
  ((t.lba2.last * 2^8 + t.lba1.last) * 16 + field t.device 0 4) * 63 + t.lba0.last - 1

def TaskFile.lba28Sector (t : TaskFile) : Nat :=
  field t.device 0 4 * 2^24 + t.lba2.last * 2^16 + t.lba1.last * 2^8 + t.lba0.last

/-- The bytes written first are the high ones. -/
def TaskFile.lba48Sector (t : TaskFile) : Nat :=
  t.lba2.previous * 2^40 + t.lba1.previous * 2^32 + t.lba0.previous * 2^24 +
    (t.lba2.last * 2^16 + t.lba1.last * 2^8 + t.lba0.last)

def TaskFile.transfer (t : TaskFile) (mode : AccessMode) : Command :=
  .transfer mode (if field t.device 6 1 = 1 then t.lba28Sector else t.chsSector) (sectorCount t.count.last 256)

def TaskFile.transferExt (t : TaskFile) (mode : AccessMode) : Command :=
  .transfer mode t.lba48Sector (sectorCount (t.count.previous * 2^8 + t.count.last) 65536)

def TaskFile.decode (t : TaskFile) (code : Nat) : Command :=
  if code = ATA_CMD_READ_PIO then t.transfer .read
  else if code = ATA_CMD_WRITE_PIO then t.transfer .write
  else if code = ATA_CMD_READ_PIO_EXT then t.transferExt .read
  else if code = ATA_CMD_WRITE_PIO_EXT then t.transferExt .write
  else if code = ATA_CMD_CACHE_FLUSH ∨ code = ATA_CMD_CACHE_FLUSH_EXT then .flush
  else .other code

def TaskFile.run : TaskFile → List Out → List Command
  | _, [] => []
  | t, ⟨.io 2, data⟩ :: os => { t with count := t.count.write data }.run os
  | t, ⟨.io 3, data⟩ :: os => { t with lba0 := t.lba0.write data }.run os
  | t, ⟨.io 4, data⟩ :: os => { t with lba1 := t.lba1.write data }.run os
  | t, ⟨.io 5, data⟩ :: os => { t with lba2 := t.lba2.write data }.run os
  | t, ⟨.io 6, data⟩ :: os => { t with device := data }.run os
  | t, ⟨.io 7, data⟩ :: os => t.decode data :: t.run os
  | t, _ :: os => t.run os

variable {dev : IdeDevice} {mode : AccessMode} {lba numsects : Nat}

def accessCommands (mode : AccessMode) (lba count : Nat) : List Command :=
  match mode with
  | .read => [.transfer .read lba count]
  | .write => [.transfer .write lba count, .flush]

/-- Whatever the registers held before, the drive is told to move these sectors. -/
def Decodes (dev : IdeDevice) (mode : AccessMode) (lba numsects : Nat) : Prop :=
  ∀ t : TaskFile, t.run (ideDeviceAtaAccess dev mode lba numsects) = accessCommands mode lba numsects

theorem select_bits (drive : Fin 2) (head : Fin 16) :
    (field ((0xA0 ||| drive.1 <<< 4 ||| head.1) % 2^8) 0 4 = head.1 ∧
      field ((0xA0 ||| drive.1 <<< 4 ||| head.1) % 2^8) 6 1 = 0) ∧
    field ((0xE0 ||| drive.1 <<< 4 ||| head.1) % 2^8) 0 4 = head.1 ∧
      field ((0xE0 ||| drive.1 <<< 4 ||| head.1) % 2^8) 6 1 = 1 := by
  revert drive head
  decide

theorem select_chs {head : Nat} (hhead : head < 16) (drive : Fin 2) :
    field ((0xA0 ||| drive.1 <<< 4 ||| head) % 2^8) 0 4 = head ∧
      field ((0xA0 ||| drive.1 <<< 4 ||| head) % 2^8) 6 1 = 0 := (select_bits drive ⟨head, hhead⟩).1

theorem select_lba28 {head : Nat} (hhead : head < 16) (drive : Fin 2) :
    field ((0xE0 ||| drive.1 <<< 4 ||| head) % 2^8) 0 4 = head ∧
      field ((0xE0 ||| drive.1 <<< 4 ||| head) % 2^8) 6 1 = 1 := (select_bits drive ⟨head, hhead⟩).2

def AccessParams.highBytes (p : AccessParams) (t : TaskFile) (numsects : Nat) : TaskFile :=
  if p.mode = .lba48 then
    { t with
      count := t.count.write (numsects / 2^8 % 2^8 % 2^8)
      lba0 := t.lba0.write (p.lbaIo 3 % 2^8)
      lba1 := t.lba1.write (p.lbaIo 4 % 2^8)
      lba2 := t.lba2.write (p.lbaIo 5 % 2^8) }
  else t

def AccessParams.task (p : AccessParams) (t : TaskFile) (drive : Fin 2) (numsects : Nat) : TaskFile where
  count := (p.highBytes t numsects).count.write (numsects % 2^8 % 2^8)
  lba0 := (p.highBytes t numsects).lba0.write (p.lbaIo 0 % 2^8)
  lba1 := (p.highBytes t numsects).lba1.write (p.lbaIo 1 % 2^8)
  lba2 := (p.highBytes t numsects).lba2.write (p.lbaIo 2 % 2^8)
  device := p.select drive % 2^8

def AccessParams.command (p : AccessParams) (t : TaskFile) (mode : AccessMode) (drive : Fin 2) (numsects : Nat) :
    Command :=
  match p.mode with
  | .lba48 => (p.task t drive numsects).transferExt mode
  | _ => (p.task t drive numsects).transfer mode

theorem run_access (t : TaskFile) : t.run (ideDeviceAtaAccess dev mode lba numsects) =
    (accessParams dev lba numsects).command t mode dev.driveIdx numsects ::
      match mode with
      | .read => []
      | .write => [.flush] := by
  unfold ideDeviceAtaAccess
  generalize accessParams dev lba numsects = p
  obtain ⟨m, head, io⟩ := p
  cases m with
  | chs => cases mode <;> rfl
  | lba28 => cases mode <;> rfl
  | lba48 => cases mode <;> rfl

theorem run_access_eq {sector count : Nat} {t : TaskFile}
    (h : (accessParams dev lba numsects).command t mode dev.driveIdx numsects = .transfer mode sector count) :
    t.run (ideDeviceAtaAccess dev mode lba numsects) = accessCommands mode sector count := by
  rw [run_access, h]
  cases mode <;> rfl

theorem sectorCount_of_pos {n max : Nat} (h : 1 ≤ n) : sectorCount n max = n := by
  rw [sectorCount, if_neg (by omega)]

section Command

variable {head : Nat} {io : Fin 6 → Nat} {t : TaskFile} {drive : Fin 2}

theorem command_lba48 : AccessParams.command ⟨.lba48, head, io⟩ t mode drive numsects = .transfer mode
    (io 5 % 2^8 * 2^40 + io 4 % 2^8 * 2^32 + io 3 % 2^8 * 2^24 +
      (io 2 % 2^8 * 2^16 + io 1 % 2^8 * 2^8 + io 0 % 2^8))
    (sectorCount (numsects / 2^8 % 2^8 % 2^8 * 2^8 + numsects % 2^8 % 2^8) 65536) := rfl

theorem command_lba28 (hhead : head < 16) :
    AccessParams.command ⟨.lba28, head, io⟩ t mode drive numsects = .transfer mode
      (head * 2^24 + io 2 % 2^8 * 2^16 + io 1 % 2^8 * 2^8 + io 0 % 2^8) (sectorCount (numsects % 2^8 % 2^8) 256) := by
  obtain ⟨hbits, hbit⟩ := select_lba28 hhead drive
  change Command.transfer mode (if field ((0xE0 ||| drive.1 <<< 4 ||| head) % 2^8) 6 1 = 1 then
    field ((0xE0 ||| drive.1 <<< 4 ||| head) % 2^8) 0 4 * 2^24 + io 2 % 2^8 * 2^16 + io 1 % 2^8 * 2^8 +
      io 0 % 2^8 else _) _ = _
  rw [if_pos hbit, hbits]
  rfl

theorem command_chs (hhead : head < 16) :
    AccessParams.command ⟨.chs, head, io⟩ t mode drive numsects = .transfer mode
      (((io 2 % 2^8 * 2^8 + io 1 % 2^8) * 16 + head) * 63 + io 0 % 2^8 - 1)
      (sectorCount (numsects % 2^8 % 2^8) 256) := by
  obtain ⟨hbits, hbit⟩ := select_chs hhead drive
  change Command.transfer mode (if field ((0xA0 ||| drive.1 <<< 4 ||| head) % 2^8) 6 1 = 1 then _ else
    ((io 2 % 2^8 * 2^8 + io 1 % 2^8) * 16 + field ((0xA0 ||| drive.1 <<< 4 ||| head) % 2^8) 0 4) * 63 +
      io 0 % 2^8 - 1) _ = _
  rw [if_neg (by omega), hbits]
  rfl

end Command

theorem decodes_lba48 (hlba : lba < 2^32) (hpos : 1 ≤ numsects) (hn : numsects < 2^16)
    (h : 0x10000000 ≤ lba ∨ 255 < numsects) : Decodes dev mode lba numsects := by
  intro t
  apply run_access_eq
  have hcount : numsects / 2^8 % 2^8 % 2^8 * 2^8 + numsects % 2^8 % 2^8 = numsects := by omega
  have hsector : field lba 24 8 % 2^8 * 2^24 +
      (field lba 16 8 % 2^8 * 2^16 + field lba 8 8 % 2^8 * 2^8 + field lba 0 8 % 2^8) = lba := by
    clear h hcount hn hpos
    simp only [field, Nat.mod_mod, pow_zero, Nat.div_one]
    omega
  rw [accessParams, if_pos h, command_lba48, hcount, sectorCount_of_pos hpos]
  change Command.transfer mode (0 % 2^8 * 2^40 + 0 % 2^8 * 2^32 + field lba 24 8 % 2^8 * 2^24 +
    (field lba 16 8 % 2^8 * 2^16 + field lba 8 8 % 2^8 * 2^8 + field lba 0 8 % 2^8)) numsects = _
  rw [Nat.zero_mod, Nat.zero_mul, Nat.zero_mul, Nat.zero_add, hsector]

theorem decodes_lba28 (hpos : 1 ≤ numsects) (h : ¬ (0x10000000 ≤ lba ∨ 255 < numsects)) (hdev : dev.SupportsLba) :
    Decodes dev mode lba numsects := by
  intro t
  apply run_access_eq
  have hcount : numsects % 2^8 % 2^8 = numsects := by omega
  have hsector : field lba 24 4 * 2^24 + field lba 16 8 % 2^8 * 2^16 + field lba 8 8 % 2^8 * 2^8 +
      field lba 0 8 % 2^8 = lba := by
    unfold field
    omega
  rw [accessParams, if_neg h, if_pos hdev, command_lba28 (field_lt lba 24 4), hcount, sectorCount_of_pos hpos]
  change Command.transfer mode (field lba 24 4 * 2^24 + field lba 16 8 % 2^8 * 2^16 + field lba 8 8 % 2^8 * 2^8 +
    field lba 0 8 % 2^8) numsects = _
  rw [hsector]

def chsDecoded (lba : Nat) : Nat := (lba / 63 / 16 % 2^16 * 16 + lba / 63 % 16) * 63 + lba % 63

theorem chsDecoded_eq_iff : chsDecoded lba = lba ↔ lba < 65536 * (16 * 63) := by
  unfold chsDecoded
  omega

section Chs

variable (hpos : 1 ≤ numsects) (h : ¬ (0x10000000 ≤ lba ∨ 255 < numsects)) (hdev : ¬ dev.SupportsLba)
include hpos h hdev

theorem run_chs (t : TaskFile) :
    t.run (ideDeviceAtaAccess dev mode lba numsects) = accessCommands mode (chsDecoded lba) numsects := by
  apply run_access_eq
  have hcount : numsects % 2^8 % 2^8 = numsects := by omega
  have hsect : lba + 1 - (lba % 63 + 1) = 63 * (lba / 63) := by omega
  have hcylinder : 63 * (lba / 63) / (16 * 63) = lba / 63 / 16 := by omega
  have hhead : 63 * (lba / 63) % (16 * 63) / 63 = lba / 63 % 16 := by omega
  rw [accessParams, if_neg h, if_neg hdev]
  dsimp only
  rw [hsect, hcylinder, hhead, command_chs (Nat.mod_lt _ (by decide)), hcount, sectorCount_of_pos hpos]
  generalize hc : lba / 63 / 16 % 2^16 = c
  change Command.transfer mode (((field c 8 8 % 2^8 * 2^8 + field c 0 8 % 2^8) * 16 + lba / 63 % 16) * 63 +
    (lba % 63 + 1) % 2^8 - 1) numsects = _
  have hbytes : field c 8 8 % 2^8 * 2^8 + field c 0 8 % 2^8 = c := by
    unfold field
    omega
  have hsector : (lba % 63 + 1) % 2^8 = lba % 63 + 1 := by omega
  rw [hbytes, hsector, chsDecoded, hc]
  rfl

theorem decodes_chs :
    Decodes dev mode lba numsects ↔ chsDecoded lba = lba := by
  constructor
  · intro hall
    have hfirst := hall ⟨⟨0, 0⟩, ⟨0, 0⟩, ⟨0, 0⟩, ⟨0, 0⟩, 0⟩
    rw [run_chs hpos h hdev] at hfirst
    cases mode with
    | read => simpa [accessCommands] using hfirst
    | write => simpa [accessCommands] using hfirst
  · intro heq t
    rw [run_chs hpos h hdev, heq]

end Chs

/-- The registers hold the given sectors unless the drive has no linear addresses and the
cylinder does not fit into 16 bits. -/
theorem ideDeviceAtaAccess_decodes_iff (dev : IdeDevice) (mode : AccessMode) {lba numsects : Nat} (hlba : lba < 2^32)
    (hpos : 1 ≤ numsects) (hn : numsects ≤ 65535) : Decodes dev mode lba numsects ↔
      0x10000000 ≤ lba ∨ 255 < numsects ∨ dev.SupportsLba ∨ lba < 65536 * (16 * 63) := by
  by_cases h : 0x10000000 ≤ lba ∨ 255 < numsects
  · have hdec : Decodes dev mode lba numsects := decodes_lba48 hlba hpos (by omega) h
    exact iff_of_true hdec (h.imp_right .inl)
  by_cases hdev : dev.SupportsLba
  · exact iff_of_true (decodes_lba28 hpos h hdev) (.inr (.inr (.inl hdev)))
  · rw [decodes_chs hpos h hdev, chsDecoded_eq_iff]
    constructor
    · intro hlt
      exact .inr (.inr (.inr hlt))
    · rintro (hbig | hmany | hsup | hlt)
      · exact absurd (.inl hbig) h
      · exact absurd (.inr hmany) h
      · exact absurd hsup hdev
      · exact hlt

def oldDrive : IdeDevice := ⟨1, 0⟩

theorem ideDeviceAtaAccess_decodes_iff_old : Decodes oldDrive .write 1000000 8 :=
  (ideDeviceAtaAccess_decodes_iff oldDrive .write (by decide) (by decide) (by decide)).mpr (by decide)

/-- Cylinder 65536 is written as cylinder 0, and the first sector of the drive is moved. -/
theorem ideDeviceAtaAccess_wraps_cylinder : ¬ Decodes oldDrive .read 66060288 1 ∧
    ∀ t : TaskFile, t.run (ideDeviceAtaAccess oldDrive .read 66060288 1) = [.transfer .read 0 1] := by
  constructor
  · rw [decodes_chs (by decide) (by decide) (by decide), chsDecoded_eq_iff]
    decide
  · exact run_chs (by decide) (by decide) (by decide)

end Comus.Fs
