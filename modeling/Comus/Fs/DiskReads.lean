import Comus.Fs.Disks

/-!
# What a disk read reports

The number that `disk_read` returns is a count of bytes or an error, and the
errors are positive: a caller takes them for counts. A read reports the truth
exactly where it has transferred all the bytes that its number counts.
-/

namespace Comus.Fs

open Word Option List

variable {d : Drive} {dev : Ide} {b b' : Bounce} {a a' : Answer} {offset len size : Nat}
   {n : Int}

def bufferAfter (old : Nat → UInt8) (bytes : List UInt8) (i : Nat) : UInt8 := (bytes[i]?).getD (old i)

def Delivers (d : Drive) (offset : Nat) (bytes : List UInt8) (n : Int) : Prop :=
  ∀ (old : Nat → UInt8) (i : Nat), (i : Int) < n →
    offset + i < d.size ∧ bufferAfter old bytes i = d.byte (offset + i)

theorem not_delivers_nil (hn : 1 ≤ n) : ¬ Delivers d offset [] n := by
  intro h
  obtain ⟨-, heq⟩ := h (fun _ => d.byte offset + 1) 0 (by omega)
  simp [bufferAfter] at heq

theorem toI32_le (n : Nat) : toI32 n ≤ n := by
  unfold toI32
  omega

structure Bounce.Like (b b' : Bounce) : Prop where
  len : b'.len = b.len
  mem : b'.mem.isSome = b.mem.isSome

structure Answer.Like (a a' : Answer) : Prop where
  alloc : a'.alloc.isSome = a.alloc.isSome
  readError : a'.readError = a.readError

theorem Bounce.Like.rfl : b.Like b := ⟨Eq.refl _, Eq.refl _⟩

theorem Answer.Like.rfl : a.Like a := ⟨Eq.refl _, Eq.refl _⟩

theorem Bounce.grow_cases (b : Bounce) (size : Nat) (alloc : Option (Nat → UInt8)) :
    (b.grow size alloc).mem =
      if b.mem.isNone ∨ b.len < size then (if size = 0 then none else alloc) else b.mem := by
  unfold Bounce.grow
  split_ifs with hsmall hsize
  · simp only
  · cases alloc <;> simp only
  · rfl

theorem Bounce.Like.grow (hb : b.Like b') (ha : a.Like a') (size : Nat) :
    (b'.grow size a'.alloc).mem.isSome = (b.grow size a.alloc).mem.isSome := by
  have hnone : b'.mem.isNone = b.mem.isNone := by
    rw [← not_isSome, ← not_isSome, hb.mem]
  rw [Bounce.grow_cases, Bounce.grow_cases, hb.len, hnone]
  split_ifs with hsmall hsize
  · rfl
  · exact ha.alloc
  · exact hb.mem

def Bounce.fill (b : Bounce) (c : UInt8) : Bounce := { b with mem := b.mem.map fun _ _ => c }

def Answer.fill (a : Answer) (c : UInt8) : Answer := { a with alloc := a.alloc.map fun _ _ => c }

theorem Bounce.like_fill (b : Bounce) (c : UInt8) : b.Like (b.fill c) := ⟨rfl, isSome_map⟩

theorem Answer.like_fill (a : Answer) (c : UInt8) : a.Like (a.fill c) := ⟨isSome_map, rfl⟩

theorem Bounce.grow_fill (b : Bounce) (a : Answer) (size : Nat) (c : UInt8) :
    ((b.fill c).grow size (a.fill c).alloc).mem = (b.grow size a.alloc).mem.map fun _ _ => c := by
  rw [Bounce.grow_cases, Bounce.grow_cases]
  simp only [Bounce.fill, Answer.fill, isNone_map]
  split_ifs <;> rfl

structure Transferred (dev : Ide) (b : Bounce) (a : Answer) (offset len : Nat) : Prop where
  alloc : (b.grow (readSectors offset len * ATA_SECT_SIZE % 2^32) a.alloc).mem.isSome = true
  noError : a.readError = .ok
  range : (offset / ATA_SECT_SIZE % 2^32 + readSectors offset len % 2^16) % 2^32 ≤ dev.sectors

def transferred (dev : Ide) (offset len : Nat) (mem : Nat → UInt8) : List UInt8 :=
  (range len).map fun i =>
    if offset % ATA_SECT_SIZE + i < readSectors offset len % 2^16 * ATA_SECT_SIZE then
      dev.data (offset / ATA_SECT_SIZE % 2^32 * ATA_SECT_SIZE + (offset % ATA_SECT_SIZE + i))
    else mem (offset % ATA_SECT_SIZE + i)

theorem Transferred.like (h : Transferred dev b a offset len) (hb : b.Like b') (ha : a.Like a') :
    Transferred dev b' a' offset len :=
  ⟨(hb.grow ha _).trans h.alloc, ha.readError.trans h.noError, h.range⟩

theorem diskReadAta_of_transferred (h : Transferred dev b a offset len) :
    ∃ mem, (b.grow (readSectors offset len * ATA_SECT_SIZE % 2^32) a.alloc).mem = some mem ∧
      (diskReadAta dev b a offset len).ret = toI32 len ∧
      (diskReadAta dev b a offset len).bytes = transferred dev offset len mem := by
  obtain ⟨mem, hmem⟩ := isSome_iff_exists.mp h.alloc
  have hread : ideDeviceReadSectors dev a.readError (readSectors offset len)
      (offset / ATA_SECT_SIZE) mem = (.ok, fun i =>
        if i < readSectors offset len % 2^16 * ATA_SECT_SIZE then
          dev.data (offset / ATA_SECT_SIZE % 2^32 * ATA_SECT_SIZE + i)
        else mem i) := by
    unfold ideDeviceReadSectors
    dsimp only
    rw [if_neg (not_lt.mpr h.range), h.noError, if_neg (by simp)]
  refine ⟨mem, hmem, ?_, ?_⟩
  · unfold diskReadAta
    dsimp only
    rw [hmem]
    dsimp only
    rw [hread, if_neg (by simp)]
  · unfold diskReadAta
    dsimp only
    rw [hmem]
    dsimp only
    rw [hread, if_neg (by simp)]
    rfl

theorem IdeError.code_pos {e : IdeError} (h : e ≠ .ok) : 1 ≤ e.code := by
  cases e <;> first | exact absurd rfl h | decide

/-- Otherwise nothing is stored, and the returned number is positive all the same. -/
theorem diskReadAta_of_not_transferred (h : ¬ Transferred dev b a offset len) :
    1 ≤ (diskReadAta dev b a offset len).ret ∧ (diskReadAta dev b a offset len).bytes = [] := by
  unfold diskReadAta
  dsimp only
  cases hmem : (b.grow (readSectors offset len * ATA_SECT_SIZE % 2^32) a.alloc).mem with
  | none => exact ⟨show (1 : Int) ≤ negNoMemory by decide, rfl⟩
  | some mem =>
    dsimp only
    have herror : (ideDeviceReadSectors dev a.readError (readSectors offset len)
        (offset / ATA_SECT_SIZE) mem).1 ≠ .ok := by
      unfold ideDeviceReadSectors
      dsimp only
      split_ifs with hrange herr
      · simp
      · exact herr
      · exact absurd ⟨by rw [hmem]; rfl, not_not.mp herr, not_lt.mp hrange⟩ h
    rw [if_pos herror]
    exact ⟨IdeError.code_pos herror, rfl⟩

/-- The bytes counted by `n` lie on the disk and in the sectors that are transferred. -/
def Covered (dev : Ide) (offset len : Nat) (n : Int) : Prop :=
  offset + n ≤ (dev.sectors * ATA_SECT_SIZE : Nat) ∧
    (offset % ATA_SECT_SIZE : Nat) + n ≤ (readSectors offset len % 2^16 * ATA_SECT_SIZE : Nat)

theorem Covered.delivers {mem : Nat → UInt8} (h : Covered dev offset len n) (hn : n ≤ len) :
    Delivers (.ata dev) offset (transferred dev offset len mem) n := by
  intro old i hi
  obtain ⟨hdisk, hsects⟩ := h
  have hsectors := dev.sectors_lt
  change offset + i < dev.sectors * ATA_SECT_SIZE ∧ _
  unfold ATA_SECT_SIZE at *
  refine ⟨by omega, ?_⟩
  have hlba : offset / 512 % 2^32 * 512 + (offset % 512 + i) = offset + i := by omega
  unfold bufferAfter transferred ATA_SECT_SIZE
  rw [getElem?_map, getElem?_range (by omega), map_some, getD_some,
    if_pos (by omega), hlba]
  rfl

theorem covered_of_delivers (hn : 1 ≤ n) (hlen : n ≤ len)
    (h : ∀ c, Delivers (.ata dev) offset (transferred dev offset len fun _ => c) n) :
    Covered dev offset len n := by
  obtain ⟨i, hi⟩ : ∃ i : Nat, n = i + 1 := ⟨(n - 1).toNat, by omega⟩
  -- memory that differs from the last byte
  obtain ⟨hdisk, hbyte⟩ := h (dev.data (offset + i) + 1) (fun _ => 0) i (by omega)
  change offset + i < dev.sectors * ATA_SECT_SIZE at hdisk
  refine ⟨by omega, ?_⟩
  by_contra hout
  unfold bufferAfter transferred at hbyte
  rw [getElem?_map, getElem?_range (by omega), map_some, getD_some,
    if_neg (by omega)] at hbyte
  change dev.data (offset + i) + 1 = dev.data (offset + i) at hbyte
  simp at hbyte

def Drive.transferLen : Drive → Nat → Nat → Int
  | .ramdisk data, offset, len => toI32 (min len (data.length - offset) : Nat)
  | .ata _, _, len => toI32 len
  | .invalid, _, _ => negBadParam

def Truthful (d : Drive) (b : Bounce) (a : Answer) (offset len : Nat) : Prop :=
  match d with
  | .ramdisk data => offset < data.length
  | .ata dev => Transferred dev b a offset len ∧
      (toI32 len ≤ 0 ∨ Covered dev offset len (toI32 len))
  | .invalid => False

theorem diskReadRd_of_lt {data : List UInt8} (h : offset < data.length) :
    diskReadRd data offset len =
      (toI32 (min len (data.length - offset) : Nat),
        (data.drop offset).take (min len (data.length - offset))) := by
  have hlen : (if data.length - offset < len then data.length - offset else len) =
      min len (data.length - offset) := by
    split_ifs <;> omega
  unfold diskReadRd
  rw [if_neg (by omega)]
  dsimp only
  rw [hlen]

theorem diskReadRd_delivers {data : List UInt8} (h : offset < data.length) :
    Delivers (.ramdisk data) offset (diskReadRd data offset len).2 (diskReadRd data offset len).1 := by
  rw [diskReadRd_of_lt h]
  intro old i hi
  have hle := toI32_le (min len (data.length - offset))
  have hin : i < min len (data.length - offset) := by
    have hi' := lt_of_lt_of_le hi hle
    exact_mod_cast hi'
  have hdisk : offset + i < data.length := by omega
  refine ⟨hdisk, ?_⟩
  unfold bufferAfter
  rw [getElem?_take_of_lt hin, getElem?_drop, getElem?_eq_getElem hdisk]
  simp [Drive.byte, hdisk]

theorem delivers_iff (d : Drive) (b : Bounce) (a : Answer) (offset len : Nat) :
    (∀ b' a', b.Like b' → a.Like a' →
      Delivers d offset (diskRead d b' a' offset len).bytes (diskRead d b' a' offset len).ret) ↔
    Truthful d b a offset len := by
  cases d with
  | ramdisk data =>
    constructor
    · intro h
      by_contra hout
      have hread : diskReadRd data offset len = (negBadParam, []) := by
        unfold diskReadRd
        rw [if_pos (not_lt.mp hout)]
      have hnone := h b a Bounce.Like.rfl Answer.Like.rfl
      change Delivers _ _ (diskReadRd data offset len).2 (diskReadRd data offset len).1 at hnone
      rw [hread] at hnone
      exact not_delivers_nil (by decide) hnone
    · intro hlt b' a' _ _
      exact diskReadRd_delivers hlt
  | ata dev =>
    constructor
    · intro h
      have htrans : Transferred dev b a offset len := by
        by_contra hnot
        obtain ⟨hret, hbytes⟩ := diskReadAta_of_not_transferred hnot
        have hnone := h b a Bounce.Like.rfl Answer.Like.rfl
        change Delivers _ _ (diskReadAta dev b a offset len).bytes _ at hnone
        rw [hbytes] at hnone
        exact not_delivers_nil hret hnone
      refine ⟨htrans, ?_⟩
      by_cases hzero : toI32 len ≤ 0
      · exact .inl hzero
      · refine .inr (covered_of_delivers (by omega) (toI32_le len) fun c => ?_)
        have hlike := htrans.like (b.like_fill c) (a.like_fill c)
        obtain ⟨mem, hmem, hret, hbytes⟩ := diskReadAta_of_transferred hlike
        have hfill := h (b.fill c) (a.fill c) (b.like_fill c) (a.like_fill c)
        change Delivers _ _ (diskReadAta dev (b.fill c) (a.fill c) offset len).bytes
          (diskReadAta dev (b.fill c) (a.fill c) offset len).ret at hfill
        rw [hbytes, hret] at hfill
        rw [Bounce.grow_fill] at hmem
        obtain ⟨_, -, rfl⟩ := map_eq_some_iff.mp hmem
        exact hfill
    · rintro ⟨htrans, hcovered⟩ b' a' hb ha
      obtain ⟨mem, -, hret, hbytes⟩ := diskReadAta_of_transferred (htrans.like hb ha)
      change Delivers _ _ (diskReadAta dev b' a' offset len).bytes
        (diskReadAta dev b' a' offset len).ret
      rw [hbytes, hret]
      rcases hcovered with hzero | hcovered
      · intro old i hi
        omega
      · exact hcovered.delivers (toI32_le len)
  | invalid =>
    constructor
    · intro h
      exact not_delivers_nil (show (1 : Int) ≤ negBadParam by decide)
        (h b a Bounce.Like.rfl Answer.Like.rfl)
    · exact False.elim

/-- A count of bytes that are in the buffer, or a negative number and nothing in the buffer. -/
def ReadContract (d : Drive) (offset len : Nat) (r : ReadResult) : Prop :=
  (0 ≤ r.ret ∧ r.ret ≤ len ∧ Delivers d offset r.bytes r.ret) ∨ (r.ret < 0 ∧ r.bytes = [])

theorem diskRead_length (d : Drive) (b : Bounce) (a : Answer) (offset len : Nat) :
    (diskRead d b a offset len).bytes.length ≤ len := by
  cases d with
  | ramdisk data => exact (ramdisk data).bounded offset len
  | ata dev =>
    change (diskReadAta dev b a offset len).bytes.length ≤ len
    by_cases h : Transferred dev b a offset len
    · obtain ⟨mem, -, -, hbytes⟩ := diskReadAta_of_transferred h
      rw [hbytes, transferred, length_map, length_range]
    · rw [(diskReadAta_of_not_transferred h).2]
      exact Nat.zero_le _
  | invalid => exact Nat.zero_le _

def Drive.disk (d : Drive) (b : Bounce) (a : Answer) : Disk where
  read offset len := ((diskRead d b a offset len).ret, (diskRead d b a offset len).bytes)
  bounded := diskRead_length d b a

/-- `tar_read` of `f` reads `len` bytes at `offset` of the disk. -/
structure Accesses (f : TarFile) (req offset len : Nat) : Prop where
  reg : f.type = .reg
  size : toI64 (min (sub64 f.len f.offset) req) = len
  pos : 1 ≤ len
  addr : u64 ((f.sect + 1) * TAR_SIZE + f.offset) = offset

theorem Accesses.tarRead_eq {f : TarFile} {req : Nat} (h : Accesses f req offset len) (disk : Disk) :
    tarRead disk f req = ((disk.read offset len).1, (disk.read offset len).2,
      { f with offset := toU64 (f.offset + (disk.read offset len).1) }) := by
  have hpos := h.pos
  unfold tarRead
  dsimp only
  rw [h.size, if_neg]
  · rw [h.addr, Int.toNat_natCast]
  · rintro (hreg | hsize)
    · exact hreg h.reg
    · omega

/-- A read of a file that gets nothing from the disk does not move the file, and reports
no byte. -/
def TarKeeps (d : Drive) (b : Bounce) (a : Answer) (offset len : Nat) : Prop :=
  ∀ f req, Accesses f req offset len → (diskRead d b a offset len).bytes = [] →
    (tarRead (d.disk b a) f req).1 ≤ 0 ∧ (tarRead (d.disk b a) f req).2.2 = f

section Truthful

variable (h : Truthful d b a offset len)
include h

theorem Truthful.ret :
    (diskRead d b a offset len).ret = d.transferLen offset len := by
  cases d with
  | ramdisk data =>
    change (diskReadRd data offset len).1 = _
    rw [diskReadRd_of_lt h]
    rfl
  | ata dev =>
    obtain ⟨_, -, hret, -⟩ := diskReadAta_of_transferred h.1
    exact hret
  | invalid => exact h.elim

theorem Truthful.like (hb : b.Like b') (ha : a.Like a') :
    Truthful d b' a' offset len := by
  cases d with
  | ramdisk data => exact h
  | ata dev => exact ⟨h.1.like hb ha, h.2⟩
  | invalid => exact h

theorem Truthful.bytes_ne_nil (hlen : 1 ≤ len) :
    (diskRead d b a offset len).bytes ≠ [] := by
  apply ne_nil_of_length_pos
  cases d with
  | ramdisk data =>
    change 0 < (diskReadRd data offset len).2.length
    have hlt : offset < data.length := h
    rw [diskReadRd_of_lt hlt, length_take, length_drop]
    omega
  | ata dev =>
    obtain ⟨mem, -, -, hbytes⟩ := diskReadAta_of_transferred h.1
    change 0 < (diskReadAta dev b a offset len).bytes.length
    rw [hbytes, transferred, length_map, length_range]
    exact hlen
  | invalid => exact h.elim

theorem Truthful.transferLen_le : d.transferLen offset len ≤ len := by
  cases d with
  | ramdisk data =>
    refine (toI32_le _).trans ?_
    exact_mod_cast Nat.min_le_left _ _
  | ata dev => exact toI32_le len
  | invalid => exact h.elim

theorem Truthful.len_pos (hneg : d.transferLen offset len < 0) :
    1 ≤ len := by
  by_contra hzero
  obtain rfl : len = 0 := by omega
  cases d with
  | ramdisk data =>
    change toI32 ((min 0 (data.length - offset) : Nat) : Int) < 0 at hneg
    rw [Nat.zero_min] at hneg
    exact absurd hneg (by decide +kernel)
  | ata dev => exact absurd hneg (show ¬ toI32 ((0 : Nat) : Int) < 0 by decide +kernel)
  | invalid => exact h.elim

end Truthful

end Comus.Fs
