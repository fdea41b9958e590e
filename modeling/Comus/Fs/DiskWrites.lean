import Comus.Fs.DiskReads

/-!
# Reading back what was written

`disk_write_ata` reads the sectors of a range, copies the data over and writes
them back, but counts the sectors from the length alone. Where the range begins
in the middle of a sector and ends beyond the sectors counted, the copy leaves
the bounce buffer and the last bytes never reach the drive.
-/

namespace Comus.Fs

open Word Option List

structure Faithful (a : Answer) : Prop where
  read : a.readError = .ok
  write : a.writeError = .ok

/-- A write that returns no negative number is read back and changes nothing else; its copy
stays in the bounce buffer. -/
structure WritesBack (d : Drive) (bw br : Bounce) (aw ar : Answer) (offset : Nat)
    (data : List UInt8) : Prop where
  readBack : 0 ≤ (diskWrite d bw aw offset data).ret →
    (diskRead (diskWrite d bw aw offset data).disk br ar offset data.length).bytes = data
  frame : 0 ≤ (diskWrite d bw aw offset data).ret → ∀ x, x < d.size →
    x < offset ∨ offset + data.length ≤ x → (diskWrite d bw aw offset data).disk.byte x = d.byte x
  inside : (diskWrite d bw aw offset data).reach ≤ writeSectors data.length * ATA_SECT_SIZE

/-- Both bounce buffers are found, the range lies in the sectors counted for it, and their
number is one of 16 bits; or the length is not one of an `int`. -/
def WriteCond (d : Drive) (bw br : Bounce) (aw ar : Answer) (offset len : Nat) : Prop :=
  match d with
  | .ata _ => len = 0 ∨
      (bw.grow (writeSectors len * ATA_SECT_SIZE % 2^32) aw.alloc).mem.isSome = true ∧
      offset % ATA_SECT_SIZE + len ≤ writeSectors len * ATA_SECT_SIZE ∧
      (toI32 len < 0 ∨
        (br.grow (readSectors offset len * ATA_SECT_SIZE % 2^32) ar.alloc).mem.isSome = true ∧
        writeSectors len < 2^16)
  | _ => True

variable {dev : Ide} {bw br : Bounce} {aw ar : Answer} {offset len : Nat} {data : List UInt8}
  {mem : Nat → UInt8}

def written (dev : Ide) (offset : Nat) (data : List UInt8) (x : Nat) : UInt8 :=
  if offset ≤ x ∧ x < offset + data.length ∧
      x < (offset / ATA_SECT_SIZE + writeSectors data.length % 2^16) * ATA_SECT_SIZE then
    data.getD (x - offset) 0
  else dev.data x

section Range

variable (hin : offset + len ≤ dev.sectors * ATA_SECT_SIZE)
include hin

theorem writeSectors_eq : writeSectors len = (len + 511) / 512 := by
  have hsectors := dev.sectors_lt
  unfold ATA_SECT_SIZE at hin
  unfold writeSectors ATA_SECT_SIZE
  rw [u64_of_lt (by omega)]
  omega

theorem readSectors_eq : readSectors offset len = (len + offset % 512 + 511) / 512 := by
  have hsectors := dev.sectors_lt
  unfold ATA_SECT_SIZE at hin
  unfold readSectors ATA_SECT_SIZE
  rw [u64_of_lt (by omega)]
  omega

theorem write_range : (offset / ATA_SECT_SIZE % 2^32 + writeSectors len % 2^16) % 2^32 ≤ dev.sectors := by
  have hsectors := dev.sectors_lt
  rw [writeSectors_eq hin]
  unfold ATA_SECT_SIZE at *
  omega

theorem read_range : (offset / ATA_SECT_SIZE % 2^32 + readSectors offset len % 2^16) % 2^32 ≤ dev.sectors := by
  have hsectors := dev.sectors_lt
  rw [readSectors_eq hin]
  unfold ATA_SECT_SIZE at *
  omega

end Range

theorem diskWriteAta_eq (hin : offset + data.length ≤ dev.sectors * ATA_SECT_SIZE) (hfaithful : Faithful aw)
    (hmem : (bw.grow (writeSectors data.length * ATA_SECT_SIZE % 2^32) aw.alloc).mem = some mem) :
    (diskWriteAta dev bw aw offset data).ret = toI32 data.length ∧
    (diskWriteAta dev bw aw offset data).disk = .ata { dev with data := written dev offset data } ∧
    (diskWriteAta dev bw aw offset data).reach =
      if data.length = 0 then 0 else offset % ATA_SECT_SIZE + data.length := by
  have hsectors := dev.sectors_lt
  have hrange := write_range hin
  have hread : ideDeviceReadSectors dev aw.readError (writeSectors data.length)
      (offset / ATA_SECT_SIZE) mem = (.ok, fun i =>
        if i < writeSectors data.length % 2^16 * ATA_SECT_SIZE then
          dev.data (offset / ATA_SECT_SIZE % 2^32 * ATA_SECT_SIZE + i)
        else mem i) := by
    unfold ideDeviceReadSectors
    dsimp only
    rw [if_neg (not_lt.mpr hrange), hfaithful.read, if_neg (by simp)]
  -- the sectors written back differ from those read in the copied range only
  have hwrite : ideDeviceWriteSectors dev aw.writeError aw.left (writeSectors data.length)
      (offset / ATA_SECT_SIZE) (copyInto (fun i =>
        if i < writeSectors data.length % 2^16 * ATA_SECT_SIZE then
          dev.data (offset / ATA_SECT_SIZE % 2^32 * ATA_SECT_SIZE + i)
        else mem i) (offset % ATA_SECT_SIZE) data) =
      (.ok, { dev with data := written dev offset data }) := by
    unfold ideDeviceWriteSectors
    dsimp only
    rw [if_neg (not_lt.mpr hrange), hfaithful.write, if_neg (by simp)]
    congr 2
    funext x
    unfold written copyInto
    generalize writeSectors data.length % 2^16 = n
    unfold ATA_SECT_SIZE at *
    have hlba : offset / 512 % 2^32 = offset / 512 := Nat.mod_eq_of_lt (by omega)
    rw [hlba]
    by_cases hx : offset / 512 * 512 ≤ x ∧ x < (offset / 512 + n) * 512
    · rw [if_pos hx]
      by_cases hcopied : offset ≤ x ∧ x < offset + data.length
      · rw [if_pos (by omega), if_pos (by omega)]
        congr 1
        omega
      · rw [if_neg (by omega), if_neg (by omega)]
        dsimp only
        rw [if_pos (by omega)]
        congr 1
        omega
    · rw [if_neg hx, if_neg (by omega)]
  simp only [diskWriteAta, hmem, hread, hwrite, ne_eq, not_true_eq_false, if_false, and_self]

theorem readBack_eq (hin : offset + len ≤ dev.sectors * ATA_SECT_SIZE) (hfaithful : Faithful ar)
    (hmem : (br.grow (readSectors offset len * ATA_SECT_SIZE % 2^32) ar.alloc).mem = some mem)
    (contents : Nat → UInt8) :
    (diskReadAta { dev with data := contents } br ar offset len).bytes =
      transferred { dev with data := contents } offset len mem := by
  have htrans : Transferred { dev with data := contents } br ar offset len :=
    ⟨by rw [hmem]; rfl, hfaithful.read, read_range hin⟩
  obtain ⟨mem', hmem', -, hbytes⟩ := diskReadAta_of_transferred htrans
  rw [hbytes, some.inj (hmem.symm.trans hmem')]

theorem transferred_written (hin : offset + data.length ≤ dev.sectors * ATA_SECT_SIZE)
    (hfit : offset % ATA_SECT_SIZE + data.length ≤ writeSectors data.length * ATA_SECT_SIZE)
    (hcount : writeSectors data.length < 2^16) :
    transferred { dev with data := written dev offset data } offset data.length mem = data := by
  have hsectors := dev.sectors_lt
  have hw := writeSectors_eq hin
  have hr := readSectors_eq hin
  refine ext_getElem? fun i => ?_
  unfold transferred
  rw [getElem?_map]
  by_cases hi : i < data.length
  · rw [getElem?_range hi, map_some, getElem?_eq_getElem hi]
    dsimp only
    unfold ATA_SECT_SIZE at *
    have haddr : offset / 512 % 2^32 * 512 + (offset % 512 + i) = offset + i := by omega
    rw [if_pos (by omega), haddr]
    unfold written ATA_SECT_SIZE
    rw [if_pos (by omega), Nat.add_sub_cancel_left, getD_eq_getElem?_getD,
      getElem?_eq_getElem hi, getD_some]
  · rw [getElem?_eq_none (by simpa using hi), getElem?_eq_none (not_lt.mp hi)]
    rfl

/-- With too many sectors, the last byte that is read back does not depend on the data. -/
theorem transferred_written_last (hin : offset + data.length ≤ dev.sectors * ATA_SECT_SIZE)
    (hcount : 2^16 ≤ writeSectors data.length) :
    (transferred { dev with data := written dev offset data } offset data.length mem)[data.length - 1]? =
      (transferred dev offset data.length mem)[data.length - 1]? := by
  have hsectors := dev.sectors_lt
  have hw := writeSectors_eq hin
  unfold transferred
  rw [getElem?_map, getElem?_map, getElem?_range (by omega), map_some,
    map_some]
  dsimp only
  have hlast : written dev offset data (offset / ATA_SECT_SIZE % 2^32 * ATA_SECT_SIZE +
      (offset % ATA_SECT_SIZE + (data.length - 1))) = dev.data (offset / ATA_SECT_SIZE % 2^32 *
        ATA_SECT_SIZE + (offset % ATA_SECT_SIZE + (data.length - 1))) := by
    unfold written
    rw [if_neg]
    unfold ATA_SECT_SIZE at *
    omega
  rw [hlast]

theorem written_frame {x : Nat} (h : x < offset ∨ offset + data.length ≤ x) :
    written dev offset data x = dev.data x := by
  unfold written
  rw [if_neg (by omega)]

theorem diskWriteRd_eq {disk : List UInt8} (hlt : offset < disk.length)
    (hin : offset + data.length ≤ disk.length) :
    (diskWriteRd disk offset data).2 = disk.take offset ++ data ++ disk.drop (offset + data.length) := by
  unfold diskWriteRd
  rw [if_neg (by omega)]
  dsimp only
  rw [if_neg (by omega), take_length]

theorem ramdisk_writesBack {disk : List UInt8} (hin : offset + data.length ≤ disk.length) :
    WritesBack (.ramdisk disk) bw br aw ar offset data := by
  by_cases hlt : offset < disk.length
  · have hdisk := diskWriteRd_eq hlt hin
    have hfront : (disk.take offset).length = offset := by
      rw [length_take]
      omega
    constructor
    · intro _
      change (diskReadRd (diskWriteRd disk offset data).2 offset data.length).2 = data
      rw [hdisk, diskReadRd_of_lt (by simp only [length_append, length_drop]; omega)]
      dsimp only
      have hall : min data.length ((disk.take offset ++ data ++
          disk.drop (offset + data.length)).length - offset) = data.length := by
        simp only [length_append, length_drop]
        omega
      rw [hall, append_assoc, drop_left' hfront, take_left]
    · intro _ x hx hout
      change (diskWriteRd disk offset data).2.getD x 0 = disk.getD x 0
      rw [hdisk, getD_eq_getElem?_getD, getD_eq_getElem?_getD]
      rcases hout with hx' | hx'
      · rw [append_assoc, getElem?_append_left (by omega), getElem?_take_of_lt hx']
      · rw [getElem?_append_right (by simp only [length_append]; omega),
          getElem?_drop, length_append, hfront]
        congr 2
        omega
    · exact Nat.zero_le _
  · -- an empty range at the end of the disk
    obtain rfl : data = [] := eq_nil_of_length_eq_zero (by omega)
    have hdisk : (diskWriteRd disk offset []).2 = disk := by
      unfold diskWriteRd
      rw [if_pos (by omega)]
    constructor
    · intro _
      change (diskReadRd (diskWriteRd disk offset []).2 offset 0).2 = []
      exact eq_nil_of_length_eq_zero (Nat.le_zero.mp ((ramdisk _).bounded offset 0))
    · intro _ x _ _
      change (diskWriteRd disk offset []).2.getD x 0 = disk.getD x 0
      rw [hdisk]
    · exact Nat.zero_le _

theorem diskWriteAta_of_none
    (hmem : (bw.grow (writeSectors data.length * ATA_SECT_SIZE % 2^32) aw.alloc).mem = none) :
    (diskWriteAta dev bw aw offset data).ret = negNoMemory ∧
    (diskWriteAta dev bw aw offset data).disk = .ata dev ∧
    (diskWriteAta dev bw aw offset data).reach = 0 := by
  simp only [diskWriteAta, hmem, and_self]

section Ata

variable (hin : offset + len ≤ dev.sectors * ATA_SECT_SIZE) (hw : Faithful aw) (hr : Faithful ar)
include hin hw hr

theorem ata_writesBack (hcond : WriteCond (.ata dev) bw br aw ar offset len)
    (hlen : data.length = len) : WritesBack (.ata dev) bw br aw ar offset data := by
  subst hlen
  cases hmem : (bw.grow (writeSectors data.length * ATA_SECT_SIZE % 2^32) aw.alloc).mem with
  | none =>
    obtain ⟨-, hdisk, hreach⟩ : (diskWriteAta dev bw aw offset data).ret = negNoMemory ∧
        (diskWriteAta dev bw aw offset data).disk = .ata dev ∧
        (diskWriteAta dev bw aw offset data).reach = 0 := diskWriteAta_of_none hmem
    have hzero : data.length = 0 := by
      rcases hcond with hzero | ⟨halloc, -⟩
      · exact hzero
      · rw [hmem] at halloc
        cases halloc
    constructor
    · intro _
      rw [hzero, eq_nil_of_length_eq_zero hzero]
      exact eq_nil_of_length_eq_zero (Nat.le_zero.mp (diskRead_length _ _ _ _ _))
    · intro _ x _ _
      change (diskWriteAta dev bw aw offset data).disk.byte x = dev.data x
      rw [hdisk]
      rfl
    · change (diskWriteAta dev bw aw offset data).reach ≤ _
      rw [hreach]
      exact Nat.zero_le _
  | some mem =>
    obtain ⟨hret, hdisk, hreach⟩ := diskWriteAta_eq hin hw hmem
    constructor
    · intro hok
      change 0 ≤ (diskWriteAta dev bw aw offset data).ret at hok
      change (diskRead (diskWriteAta dev bw aw offset data).disk br ar offset data.length).bytes = data
      rw [hret] at hok
      rcases hcond with hzero | ⟨-, hfit, hcond⟩
      · rw [hzero, eq_nil_of_length_eq_zero hzero]
        exact eq_nil_of_length_eq_zero (Nat.le_zero.mp (diskRead_length _ _ _ _ _))
      · obtain ⟨halloc', hcount⟩ := hcond.resolve_left (by omega)
        obtain ⟨mem', hmem'⟩ := isSome_iff_exists.mp halloc'
        rw [hdisk]
        exact (readBack_eq hin hr hmem' _).trans (transferred_written hin hfit hcount)
    · intro _ x _ hout
      change (diskWriteAta dev bw aw offset data).disk.byte x = dev.data x
      rw [hdisk]
      exact written_frame hout
    · change (diskWriteAta dev bw aw offset data).reach ≤ _
      rw [hreach]
      split_ifs with hzero
      · exact Nat.zero_le _
      · exact (hcond.resolve_left hzero).2.1

theorem ata_writeCond
    (h : ∀ data : List UInt8, data.length = len → WritesBack (.ata dev) bw br aw ar offset data) :
    WriteCond (.ata dev) bw br aw ar offset len := by
  by_cases hzero : len = 0
  · exact .inl hzero
  have hfill : ∀ c : UInt8, (replicate len c).length = len := fun c => length_replicate
  have hwb := fun c => h _ (hfill c)
  -- two data that differ in every byte
  have hdiff : replicate len (0 : UInt8) ≠ replicate len 1 := by
    intro heq
    have hhead := eq_of_mem_replicate (heq ▸ mem_replicate.mpr ⟨hzero, rfl⟩)
    cases hhead
  have hsize : ∀ c : UInt8, writeSectors (replicate len c).length = writeSectors len :=
    fun c => by rw [hfill]
  cases hmem : (bw.grow (writeSectors len * ATA_SECT_SIZE % 2^32) aw.alloc).mem with
  | none =>
    exfalso
    have hback : ∀ c : UInt8, (diskReadAta dev br ar offset len).bytes = replicate len c := by
      intro c
      have hnone : (diskWrite (.ata dev) bw aw offset (replicate len c)).ret = negNoMemory ∧
          (diskWrite (.ata dev) bw aw offset (replicate len c)).disk = .ata dev ∧ _ :=
        diskWriteAta_of_none (by rw [hsize]; exact hmem)
      have hread := (hwb c).readBack (by rw [hnone.1]; decide)
      rw [hnone.2.1, hfill] at hread
      exact hread
    exact hdiff ((hback 0).symm.trans (hback 1))
  | some mem =>
    have heq : ∀ c : UInt8, (diskWrite (.ata dev) bw aw offset (replicate len c)).ret = toI32 len ∧
        (diskWrite (.ata dev) bw aw offset (replicate len c)).disk =
          .ata { dev with data := written dev offset (replicate len c) } ∧
        (diskWrite (.ata dev) bw aw offset (replicate len c)).reach =
          offset % ATA_SECT_SIZE + len := by
      intro c
      have hin' : offset + (replicate len c).length ≤ dev.sectors * ATA_SECT_SIZE := by
        rw [hfill]
        exact hin
      have hwrite := diskWriteAta_eq hin' hw (by rw [hsize]; exact hmem)
      rw [hfill, if_neg hzero] at hwrite
      exact hwrite
    refine .inr ⟨by rw [hmem]; rfl, ?_, ?_⟩
    · have hreach := (hwb 0).inside
      rw [(heq 0).2.2, hsize] at hreach
      exact hreach
    · by_cases hneg : toI32 len < 0
      · exact .inl hneg
      right
      have hback : ∀ c : UInt8, (diskReadAta { dev with
          data := written dev offset (replicate len c) } br ar offset len).bytes =
            replicate len c := by
        intro c
        have hread := (hwb c).readBack (by rw [(heq c).1]; omega)
        rw [(heq c).2.1, hfill] at hread
        exact hread
      cases hmem' : (br.grow (readSectors offset len * ATA_SECT_SIZE % 2^32) ar.alloc).mem with
      | none =>
        exfalso
        have hnot : ¬ Transferred { dev with data := written dev offset (replicate len 0) }
            br ar offset len := fun ht => by
          have halloc := ht.alloc
          rw [hmem'] at halloc
          cases halloc
        have hnil := diskReadAta_of_not_transferred hnot
        have hempty := hnil.2.symm.trans (hback 0)
        exact hzero (by simpa using (congrArg length hempty).symm)
      | some mem' =>
        refine ⟨rfl, ?_⟩
        by_contra hmany
        have hlast : ∀ c : UInt8, some c = (transferred dev offset len mem')[len - 1]? := by
          intro c
          have hin' : offset + (replicate len c).length ≤ dev.sectors * ATA_SECT_SIZE := by
            rw [hfill]
            exact hin
          have hsame : (transferred { dev with data := written dev offset (replicate len c) }
              offset (replicate len c).length mem')[(replicate len c).length - 1]? =
                (transferred dev offset (replicate len c).length mem')[
                  (replicate len c).length - 1]? :=
            transferred_written_last hin' (by rw [hsize]; exact not_lt.mp hmany)
          rw [hfill, ← readBack_eq hin hr hmem', hback c] at hsame
          rw [← hsame, getElem?_replicate, if_pos (by omega)]
        exact absurd (some.inj ((hlast 0).trans (hlast 1).symm)) (by decide)

end Ata

def blankAta : Ide := ⟨fun _ => 0, 4, by decide⟩

def freshAnswer : Answer := ⟨some fun _ => 0, .ok, .ok, fun _ => 0⟩

end Comus.Fs
