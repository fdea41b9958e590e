import Comus.Fs.Ata
import Comus.Fs.DiskReads

/-!
# The sectors that a disk call asks for

A disk call turns an offset and a length in bytes into the number of a first sector
and a count. Both are narrowed on the way to the drive, the count twice, and the
check against the size of the drive adds them in 32 bits. A request is a call of
`ide_device_ata_access`; a call is exact if its requests are the sectors that hold
a byte of the range, and if a range that leaves the drive makes it fail without one.
-/

namespace Comus.Fs

open Word List

variable {dev : Ide} {mode : AccessMode} {b : Bounce} {a : Answer} {offset len numsects k : Nat} {buffer : List UInt8}

structure Request where
  mode : AccessMode
  lba : Nat
  numsects : Nat
  deriving Repr, DecidableEq

def Request.Has (r : Request) (k : Nat) : Prop := r.lba ≤ k ∧ k < r.lba + r.numsects

/-- The request of `ide_device_read_sectors` or `ide_device_write_sectors`, if their check lets
it through. -/
def ideRequest (dev : Ide) (mode : AccessMode) (numsects lba : Nat) : List Request :=
  let numsects := numsects % 2^16
  let lba := lba % 2^32
  if (lba + numsects) % 2^32 > dev.sectors then [] else [⟨mode, lba, numsects⟩]

theorem ideDeviceReadSectors_eq (error : IdeError) (lba : Nat) (buf : Nat → UInt8) :
    ideDeviceReadSectors dev error numsects lba buf =
      match ideRequest dev .read numsects lba with
      | [] => (.nullDevice, buf)
      | r :: _ =>
        if error ≠ .ok then (error, buf)
        else (.ok, fun i =>
          if i < r.numsects * ATA_SECT_SIZE then dev.data (r.lba * ATA_SECT_SIZE + i) else buf i) := by
  unfold ideDeviceReadSectors ideRequest
  dsimp only
  split_ifs <;> rfl

theorem ideDeviceWriteSectors_eq (error : IdeError) (left : Nat → UInt8) (lba : Nat) (buf : Nat → UInt8) :
    ideDeviceWriteSectors dev error left numsects lba buf =
      match ideRequest dev .write numsects lba with
      | [] => (.nullDevice, dev)
      | r :: _ =>
        let data := fun a =>
          if r.lba * ATA_SECT_SIZE ≤ a ∧ a < (r.lba + r.numsects) * ATA_SECT_SIZE then
            buf (a - r.lba * ATA_SECT_SIZE)
          else dev.data a
        if error ≠ .ok then (error, { dev with data := left }) else (.ok, { dev with data := data }) := by
  unfold ideDeviceWriteSectors ideRequest
  dsimp only
  split_ifs <;> rfl

def bounceFor (b : Bounce) (a : Answer) (numsects : Nat) : Option (Nat → UInt8) :=
  (b.grow (numsects * ATA_SECT_SIZE % 2^32) a.alloc).mem

def diskReadRequests (dev : Ide) (b : Bounce) (a : Answer) (offset len : Nat) : List Request :=
  match bounceFor b a (readSectors offset len) with
  | none => []
  | some _ => ideRequest dev .read (readSectors offset len) (offset / ATA_SECT_SIZE)

def diskWriteRequests (dev : Ide) (b : Bounce) (a : Answer) (offset len : Nat) : List Request :=
  match bounceFor b a (writeSectors len) with
  | none => []
  | some mem =>
    ideRequest dev .read (writeSectors len) (offset / ATA_SECT_SIZE) ++
      if (ideDeviceReadSectors dev a.readError (writeSectors len) (offset / ATA_SECT_SIZE) mem).1 ≠ .ok then []
      else ideRequest dev .write (writeSectors len) (offset / ATA_SECT_SIZE)

def Covers (offset len k : Nat) : Prop := ∃ i, i < len ∧ (offset + i) / ATA_SECT_SIZE = k

def coverCount (offset len : Nat) : Nat := (len + offset % ATA_SECT_SIZE + 511) / ATA_SECT_SIZE

structure Exact (dev : Ide) (offset len : Nat) (modes : List AccessMode) (buffered : Prop) (requests : List Request)
    (failed : Prop) : Prop where
  sectors : ∀ r ∈ requests, ∀ k, r.Has k ↔ Covers offset len k
  asked : buffered → (∀ k, Covers offset len k → k < dev.sectors) →
    requests.map Request.mode = if len = 0 then [] else modes
  refused : (∃ k, Covers offset len k ∧ dev.sectors ≤ k) → requests = [] ∧ failed

def Rejected (dev : Ide) (offset numsects : Nat) : Prop :=
  dev.sectors < (offset / ATA_SECT_SIZE % 2^32 + numsects % 2^16) % 2^32

instance : Decidable (Rejected dev offset numsects) := inferInstanceAs (Decidable (_ < _))

theorem covers_iff : Covers offset len k ↔
    0 < len ∧ offset / ATA_SECT_SIZE ≤ k ∧ k < offset / ATA_SECT_SIZE + coverCount offset len := by
  unfold Covers coverCount ATA_SECT_SIZE
  constructor
  · rintro ⟨i, hi, rfl⟩
    omega
  · rintro ⟨hlen, hfirst, hlast⟩
    by_cases h : k * 512 ≤ offset
    · exact ⟨0, hlen, by omega⟩
    · exact ⟨k * 512 - offset, by omega, by omega⟩

theorem covers_lt_iff (hlen : 0 < len) :
    (∀ k, Covers offset len k → k < dev.sectors) ↔ offset + len ≤ dev.sectors * ATA_SECT_SIZE := by
  simp only [covers_iff, coverCount, ATA_SECT_SIZE]
  constructor
  · intro h
    have hlast := h ((offset + len - 1) / 512) (by omega)
    omega
  · intro h k hk
    omega

theorem leaves_iff : (∃ k, Covers offset len k ∧ dev.sectors ≤ k) ↔
    0 < len ∧ dev.sectors * ATA_SECT_SIZE < offset + len := by
  constructor
  · rintro ⟨k, hk, hle⟩
    have hlen : 0 < len := (covers_iff.mp hk).1
    refine ⟨hlen, ?_⟩
    by_contra h
    have hlt := (covers_lt_iff hlen).mpr (not_lt.mp h) k hk
    omega
  · rintro ⟨hlen, h⟩
    by_contra hall
    apply absurd ((covers_lt_iff hlen).mp fun k hk => ?_) (not_le.mpr h)
    by_contra hk'
    exact hall ⟨k, hk, not_lt.mp hk'⟩

section Narrowing

variable {modes : List AccessMode} {buffered failed : Prop}

theorem exact_nil (hasked : buffered → 0 < len → dev.sectors * ATA_SECT_SIZE < offset + len) (hfailed : failed) :
    Exact dev offset len modes buffered [] failed where
  sectors := by simp
  asked := by
    intro hb hin
    rcases eq_zero_or_pos len with rfl | hlen
    · rfl
    · have hout := hasked hb hlen
      have hle := (covers_lt_iff hlen).mp hin
      omega
  refused _ := ⟨rfl, hfailed⟩

theorem exact_requests_iff (modes : List AccessMode) (hmodes : modes ≠ []) (hb : buffered) (ho : offset < 2^64) :
    Exact dev offset len modes buffered
      (modes.map fun m => ⟨m, offset / ATA_SECT_SIZE % 2^32, numsects % 2^16⟩) failed ↔
    0 < len ∧ offset + len ≤ dev.sectors * ATA_SECT_SIZE ∧ numsects % 2^16 = coverCount offset len := by
  have hsectors := dev.sectors_lt
  constructor
  · intro h
    have hin : ¬ ∃ k, Covers offset len k ∧ dev.sectors ≤ k := by
      intro hk
      exact hmodes (map_eq_nil_iff.mp (h.refused hk).1)
    have hall : ∀ k, Covers offset len k → k < dev.sectors := by
      intro k hk
      by_contra hle
      exact hin ⟨k, hk, not_lt.mp hle⟩
    have hlen : 0 < len := by
      by_contra hzero
      have hnil := h.asked hb hall
      rw [if_pos (by omega)] at hnil
      exact hmodes (map_eq_nil_iff.mp (map_eq_nil_iff.mp hnil))
    have hle := (covers_lt_iff hlen).mp hall
    refine ⟨hlen, hle, ?_⟩
    -- The two ends of the covered sectors fix the count.
    obtain ⟨m, hm⟩ := exists_mem_of_ne_nil modes hmodes
    have hhas := h.sectors _ (mem_map.mpr ⟨m, hm, rfl⟩)
    simp only [Request.Has, covers_iff] at hhas
    have hlba : offset / ATA_SECT_SIZE % 2^32 = offset / ATA_SECT_SIZE := by
      unfold ATA_SECT_SIZE at hle ⊢
      omega
    rw [hlba] at hhas
    have hend := hhas (offset / ATA_SECT_SIZE + numsects % 2^16)
    have hend' := hhas (offset / ATA_SECT_SIZE + coverCount offset len)
    omega
  · rintro ⟨hlen, hle, hcount⟩
    have hlba : offset / ATA_SECT_SIZE % 2^32 = offset / ATA_SECT_SIZE := by
      unfold ATA_SECT_SIZE at hle ⊢
      omega
    refine ⟨?_, ?_, ?_⟩
    · intro r hr k
      obtain ⟨m, -, rfl⟩ := mem_map.mp hr
      rw [covers_iff, Request.Has, hlba, hcount]
      tauto
    · intro _ _
      rw [if_neg (by omega), map_map]
      exact List.map_id modes
    · intro hk
      have hout := (leaves_iff.mp hk).2
      omega

theorem Rejected.leaves (h : Rejected dev offset numsects)
    (hle : offset + len ≤ dev.sectors * ATA_SECT_SIZE → numsects ≤ coverCount offset len) (hlen : 0 < len) :
    dev.sectors * ATA_SECT_SIZE < offset + len := by
  by_contra hin
  have hsectors := dev.sectors_lt
  have hcount := hle (not_lt.mp hin)
  unfold Rejected at h
  unfold coverCount ATA_SECT_SIZE at *
  have hmod : numsects % 2^16 ≤ numsects := Nat.mod_le _ _
  omega

end Narrowing

/-- Reading is exact; a failed call stores nothing and returns an error. -/
def ExactRead (dev : Ide) (b : Bounce) (a : Answer) (offset len : Nat) : Prop :=
  let r := diskRead (.ata dev) b a offset len
  Exact dev offset len [.read] ((bounceFor b a (readSectors offset len)).isSome = true)
    (diskReadRequests dev b a offset len)
    (r.bytes = [] ∧ (r.ret = negNoMemory ∨ r.ret = IdeError.nullDevice.code))

/-- Writing is exact, in both its transfers; a failed call leaves the drive as it was. -/
def ExactWrite (dev : Ide) (b : Bounce) (a : Answer) (offset : Nat) (buffer : List UInt8) : Prop :=
  let r := diskWrite (.ata dev) b a offset buffer
  Exact dev offset buffer.length (if a.readError = .ok then [.read, .write] else [.read])
    ((bounceFor b a (writeSectors buffer.length)).isSome = true)
    (diskWriteRequests dev b a offset buffer.length)
    (r.disk = .ata dev ∧ (r.ret = negNoMemory ∨ r.ret = IdeError.nullDevice.code))

theorem ideRequest_of_rejected (h : Rejected dev offset numsects) :
    ideRequest dev mode numsects (offset / ATA_SECT_SIZE) = [] := if_pos h

theorem ideRequest_of_accepted (h : ¬ Rejected dev offset numsects) :
    ideRequest dev mode numsects (offset / ATA_SECT_SIZE) =
      [⟨mode, offset / ATA_SECT_SIZE % 2^32, numsects % 2^16⟩] := if_neg h

theorem ideDeviceReadSectors_of_rejected (h : Rejected dev offset numsects) (error : IdeError) (buf : Nat → UInt8) :
    ideDeviceReadSectors dev error numsects (offset / ATA_SECT_SIZE) buf = (.nullDevice, buf) := by
  rw [ideDeviceReadSectors_eq, ideRequest_of_rejected h]

theorem ideDeviceReadSectors_of_accepted (h : ¬ Rejected dev offset numsects) (error : IdeError) (buf : Nat → UInt8) :
    (ideDeviceReadSectors dev error numsects (offset / ATA_SECT_SIZE) buf).1 = error := by
  rw [ideDeviceReadSectors_eq, ideRequest_of_accepted h]
  dsimp only
  split_ifs with herror
  · exact rfl
  · exact (not_not.mp herror).symm

theorem diskRead_fails (h : bounceFor b a (readSectors offset len) = none ∨ Rejected dev offset (readSectors offset len)) :
    (diskRead (.ata dev) b a offset len).bytes = [] ∧
      ((diskRead (.ata dev) b a offset len).ret = negNoMemory ∨
        (diskRead (.ata dev) b a offset len).ret = IdeError.nullDevice.code) := by
  unfold diskRead diskReadAta
  dsimp only
  cases hmem : (b.grow (readSectors offset len * ATA_SECT_SIZE % 2^32) a.alloc).mem with
  | none => exact ⟨rfl, .inl rfl⟩
  | some mem =>
    have hrej : Rejected dev offset (readSectors offset len) := by
      refine h.resolve_left fun hnone => ?_
      rw [bounceFor, hmem] at hnone
      cases hnone
    dsimp only
    rw [ideDeviceReadSectors_of_rejected hrej, if_pos (by simp)]
    exact ⟨rfl, .inr rfl⟩

theorem diskWrite_fails
    (h : bounceFor b a (writeSectors buffer.length) = none ∨ Rejected dev offset (writeSectors buffer.length)) :
    (diskWrite (.ata dev) b a offset buffer).disk = .ata dev ∧
      ((diskWrite (.ata dev) b a offset buffer).ret = negNoMemory ∨
        (diskWrite (.ata dev) b a offset buffer).ret = IdeError.nullDevice.code) := by
  unfold diskWrite diskWriteAta
  dsimp only
  cases hmem : (b.grow (writeSectors buffer.length * ATA_SECT_SIZE % 2^32) a.alloc).mem with
  | none => exact ⟨rfl, .inl rfl⟩
  | some mem =>
    have hrej : Rejected dev offset (writeSectors buffer.length) := by
      refine h.resolve_left fun hnone => ?_
      rw [bounceFor, hmem] at hnone
      cases hnone
    dsimp only
    rw [ideDeviceReadSectors_of_rejected hrej, if_pos (by simp)]
    exact ⟨rfl, .inr rfl⟩

theorem readSectors_of_le (h : offset + len ≤ dev.sectors * ATA_SECT_SIZE) :
    readSectors offset len = coverCount offset len := by
  have hsectors := dev.sectors_lt
  unfold readSectors coverCount ATA_SECT_SIZE at *
  rw [u64_of_lt (by omega)]
  omega

theorem writeSectors_of_le (h : offset + len ≤ dev.sectors * ATA_SECT_SIZE) :
    writeSectors len = (len + 511) / ATA_SECT_SIZE := by
  have hsectors := dev.sectors_lt
  unfold writeSectors ATA_SECT_SIZE at *
  rw [u64_of_lt (by omega)]
  omega

theorem le_coverCount : (len + 511) / ATA_SECT_SIZE ≤ coverCount offset len := by
  unfold coverCount ATA_SECT_SIZE
  omega

theorem exactRead_iff (dev : Ide) (b : Bounce) (a : Answer) (ho : offset < 2^64) : ExactRead dev b a offset len ↔
    bounceFor b a (readSectors offset len) = none ∨ Rejected dev offset (readSectors offset len) ∨
      0 < len ∧ offset + len ≤ dev.sectors * ATA_SECT_SIZE ∧ coverCount offset len < 2^16 := by
  unfold ExactRead diskReadRequests
  dsimp only
  cases hmem : bounceFor b a (readSectors offset len) with
  | none => simpa using exact_nil (by simp) (diskRead_fails (.inl hmem))
  | some mem =>
    by_cases hrej : Rejected dev offset (readSectors offset len)
    · have hleaves := hrej.leaves fun hle => (readSectors_of_le hle).le
      rw [ideRequest_of_rejected hrej]
      simpa [hrej] using exact_nil (fun _ => hleaves) (diskRead_fails (.inr hrej))
    · rw [ideRequest_of_accepted hrej]
      apply (exact_requests_iff [.read] (by simp) (by simp) ho).trans
      simp only [hrej, false_or, reduceCtorEq]
      refine and_congr_right fun _ => and_congr_right fun hle => ?_
      rw [readSectors_of_le hle]
      exact ⟨fun h => h ▸ Nat.mod_lt _ (by decide), Nat.mod_eq_of_lt⟩

theorem exactWrite_iff (dev : Ide) (b : Bounce) (a : Answer) (ho : offset < 2^64) (buffer : List UInt8) :
    ExactWrite dev b a offset buffer ↔
    bounceFor b a (writeSectors buffer.length) = none ∨ Rejected dev offset (writeSectors buffer.length) ∨
      0 < buffer.length ∧ offset + buffer.length ≤ dev.sectors * ATA_SECT_SIZE ∧
        (buffer.length + 511) / ATA_SECT_SIZE = coverCount offset buffer.length ∧
        coverCount offset buffer.length < 2^16 := by
  unfold ExactWrite diskWriteRequests
  dsimp only
  cases hmem : bounceFor b a (writeSectors buffer.length) with
  | none => simpa using exact_nil (by simp) (diskWrite_fails (.inl hmem))
  | some mem =>
    dsimp only
    by_cases hrej : Rejected dev offset (writeSectors buffer.length)
    · have hleaves := hrej.leaves fun hle => (writeSectors_of_le hle).trans_le le_coverCount
      rw [ideRequest_of_rejected hrej, ideRequest_of_rejected hrej, ite_self]
      simpa [hrej] using exact_nil (fun _ => hleaves) (diskWrite_fails (.inr hrej))
    · rw [ideRequest_of_accepted hrej, ideRequest_of_accepted hrej, ideDeviceReadSectors_of_accepted hrej]
      have hmap : ([⟨.read, offset / ATA_SECT_SIZE % 2^32, writeSectors buffer.length % 2^16⟩] ++
          if a.readError ≠ .ok then []
          else [⟨.write, offset / ATA_SECT_SIZE % 2^32, writeSectors buffer.length % 2^16⟩] : List Request) =
          (if a.readError = .ok then [.read, .write] else [.read]).map fun m =>
            ⟨m, offset / ATA_SECT_SIZE % 2^32, writeSectors buffer.length % 2^16⟩ := by
        by_cases herror : a.readError = .ok
        · rw [if_neg (not_not.mpr herror), if_pos herror]
          rfl
        · rw [if_pos herror, if_neg herror]
          rfl
      rw [hmap]
      apply (exact_requests_iff _ (by split_ifs <;> simp) (by simp) ho).trans
      simp only [hrej, false_or, reduceCtorEq]
      refine and_congr_right fun _ => and_congr_right fun hle => ?_
      rw [writeSectors_of_le hle]
      have hcover : (buffer.length + 511) / ATA_SECT_SIZE ≤ coverCount offset buffer.length := le_coverCount
      generalize (buffer.length + 511) / ATA_SECT_SIZE = n at hcover ⊢
      omega

/-- A call asks for the sectors that cover its range, and for none if they are not all on
the drive, in these cases only. -/
theorem diskAccess_exact_iff (dev : Ide) (b : Bounce) (a : Answer) {offset : Nat} (ho : offset < 2^64) :
    (∀ len < 2^64, ExactRead dev b a offset len ↔
      bounceFor b a (readSectors offset len) = none ∨ Rejected dev offset (readSectors offset len) ∨
        0 < len ∧ offset + len ≤ dev.sectors * ATA_SECT_SIZE ∧ coverCount offset len < 2^16) ∧
    (∀ buffer : List UInt8, buffer.length < 2^64 → (ExactWrite dev b a offset buffer ↔
      bounceFor b a (writeSectors buffer.length) = none ∨ Rejected dev offset (writeSectors buffer.length) ∨
        0 < buffer.length ∧ offset + buffer.length ≤ dev.sectors * ATA_SECT_SIZE ∧
          (buffer.length + 511) / ATA_SECT_SIZE = coverCount offset buffer.length ∧
          coverCount offset buffer.length < 2^16)) :=
  ⟨fun _ _ => exactRead_iff dev b a ho, fun buffer _ => exactWrite_iff dev b a ho buffer⟩

def blankDrive : Ide := ⟨fun _ => 0, 2^20, by decide⟩

def noBounce : Bounce := ⟨0, none⟩

def answerOk : Answer := ⟨some fun _ => 0, .ok, .ok, fun _ => 0⟩

theorem diskAccess_exact_iff_blank :
    ExactRead blankDrive noBounce answerOk 1000 100 ∧ ExactWrite blankDrive noBounce answerOk 1024 [1, 2, 3] :=
  have h := fun offset ho => @diskAccess_exact_iff blankDrive noBounce answerOk offset ho
  ⟨((h 1000 (by decide)).1 100 (by decide)).mpr (.inr (.inr (by decide))),
    ((h 1024 (by decide)).2 [1, 2, 3] (by decide)).mpr (.inr (.inr (by decide)))⟩

/-- An offset of `2^32` sectors asks for the first one, a range of 65537 sectors for one, and a
write over the end of a sector leaves out the next. -/
theorem diskAccess_narrows :
    (diskReadRequests blankDrive noBounce answerOk (2^41) 512 = [⟨.read, 0, 1⟩] ∧
      ¬ ExactRead blankDrive noBounce answerOk (2^41) 512) ∧
    (diskReadRequests blankDrive noBounce answerOk 0 (65537 * 512) = [⟨.read, 0, 1⟩] ∧
      ¬ ExactRead blankDrive noBounce answerOk 0 (65537 * 512)) ∧
    diskWriteRequests blankDrive noBounce answerOk 511 2 = [⟨.read, 0, 1⟩, ⟨.write, 0, 1⟩] ∧
      ¬ ExactWrite blankDrive noBounce answerOk 511 [1, 2] := by
  have hhigh : readSectors (2^41) 512 = 1 := by
    rw [readSectors, u64_of_lt (by decide)]
    decide
  have hlong : readSectors 0 (65537 * 512) = 65537 := by
    rw [readSectors, u64_of_lt (by decide)]
    decide
  have hwrite : writeSectors 2 = 1 := by
    rw [writeSectors, u64_of_lt (by decide)]
    decide
  refine ⟨⟨?_, ?_⟩, ⟨?_, ?_⟩, ?_, ?_⟩
  · rw [diskReadRequests, hhigh]
    rfl
  · rw [exactRead_iff _ _ _ (by decide), hhigh]
    rintro (hnone | hrej | ⟨-, hle, -⟩)
    · cases hnone
    · exact absurd hrej (by decide)
    · exact absurd hle (by decide)
  · rw [diskReadRequests, hlong]
    rfl
  · rw [exactRead_iff _ _ _ (by decide), hlong]
    rintro (hnone | hrej | ⟨-, -, hlt⟩)
    · cases hnone
    · exact absurd hrej (by decide)
    · exact absurd hlt (by decide)
  · rw [diskWriteRequests, hwrite]
    rfl
  · rw [exactWrite_iff _ _ _ (by decide), show writeSectors ([1, 2] : List UInt8).length = 1 from hwrite]
    rintro (hnone | hrej | ⟨-, -, heq, -⟩)
    · cases hnone
    · exact absurd hrej (by decide)
    · cases heq

end Comus.Fs
