import Comus.Lib.Run
import Comus.Fs.Archive

/-!
# The loop of find_file

The number of the next header's sector is computed in 64 bits, the byte offset that
is read from it in 32. The loop comes to an end where every header it passes lies in
front of the next one; a header may send it back instead, to itself for instance.
-/

namespace Comus.Fs

open Word List

variable {disk : Disk} {path hdr : List UInt8} {start sect sect' fuel : Nat}

def position (sect : Nat) : Nat := sect % 2^32 * TAR_SIZE % 2^32

def span (hdr : List UInt8) : Nat := u64 (fileSize hdr + TAR_SIZE - 1) / TAR_SIZE + 1

def PassesHeader (disk : Disk) (path : List UInt8) (sect : Nat) (hdr : List UInt8) : Prop :=
  readTarHeader disk sect = some hdr ∧ memcmp hdr (path ++ [0]) (path.length + 1) ≠ 0

def scanStep (disk : Disk) (path : List UInt8) (sect : Nat) (_ : Unit) : Option Nat :=
  match readTarHeader disk sect with
  | none => none
  | some hdr => if memcmp hdr (path ++ [0]) (path.length + 1) ≠ 0 then some (nextSect hdr sect) else none

def Visits (disk : Disk) (path : List UInt8) (start sect : Nat) : Prop :=
  Run.Reach (scanStep disk path) Run.anyOp start sect

def Advances (hdr : List UInt8) (sect : Nat) : Prop :=
  span hdr % 2^23 ≠ 0 ∧ sect % 2^23 + span hdr % 2^23 < 2^23

theorem position_eq : position sect = sect % 2^23 * 512 := by
  unfold position TAR_SIZE
  omega

theorem position_lt : position sect < 2^32 := Nat.mod_lt _ (by decide)

theorem readTarHeader_congr (h : position sect = position sect') :
    readTarHeader disk sect = readTarHeader disk sect' := by
  unfold readTarHeader
  dsimp only
  rw [show sect % 2^32 * TAR_SIZE % 2^32 = sect' % 2^32 * TAR_SIZE % 2^32 from h]

theorem nextSect_mod : nextSect hdr sect % 2^23 = (sect % 2^23 + span hdr % 2^23) % 2^23 := by
  unfold nextSect
  change u64 (sect + span hdr) % 2^23 = _
  unfold u64
  omega

theorem advances_iff : position sect < position (nextSect hdr sect) ↔ Advances hdr sect := by
  rw [position_eq, position_eq, nextSect_mod, Advances]
  omega

theorem scanStep_eq_some_iff :
    scanStep disk path sect () = some sect' ↔ ∃ hdr, PassesHeader disk path sect hdr ∧ nextSect hdr sect = sect' := by
  unfold scanStep PassesHeader
  cases readTarHeader disk sect with
  | none => simp
  | some hdr =>
    dsimp only
    split_ifs with hname
    · simp [hname]
    · simp [hname]

theorem findFile_passes (h : PassesHeader disk path sect hdr) :
    findFile disk path (fuel + 1) sect = findFile disk path fuel (nextSect hdr sect) := by
  rw [findFile, h.1]
  dsimp only
  rw [if_pos h.2]

theorem findFile_stops (h : ∀ hdr, ¬ PassesHeader disk path sect hdr) :
    (findFile disk path (fuel + 1) sect).isSome = true := by
  rw [findFile]
  cases hread : readTarHeader disk sect with
  | none => rfl
  | some hdr =>
    dsimp only
    rw [if_neg fun hname => h hdr ⟨hread, hname⟩]
    rfl

/-- The positions are below `2^32`, so that they cannot rise for ever. -/
theorem findFile_ends (h : ∀ sect hdr, Visits disk path start sect → PassesHeader disk path sect hdr → Advances hdr sect)
    (hvisit : Visits disk path start sect) (hfuel : 2^32 ≤ position sect + fuel) :
    (findFile disk path fuel sect).isSome = true := by
  induction fuel generalizing sect with
  | zero =>
    have hlt : position sect < 2^32 := position_lt
    omega
  | succ fuel ih =>
    by_cases hpass : ∃ hdr, PassesHeader disk path sect hdr
    · obtain ⟨hdr, hpass⟩ := hpass
      have hrise := advances_iff.mpr (h sect hdr hvisit hpass)
      rw [findFile_passes hpass]
      apply ih
      · exact .step () hvisit trivial (scanStep_eq_some_iff.mpr ⟨hdr, hpass, rfl⟩)
      · omega
    · exact findFile_stops fun hdr hhdr => hpass ⟨hdr, hhdr⟩

/-- The loop ends, at positions that rise with every round, if and only if every header that
it passes sends it ahead by a number of sectors that neither vanishes nor passes the end of
the 32-bit offsets. -/
theorem findFile_rises_iff (disk : Disk) (path : List UInt8) (start : Nat) :
    ((∃ fuel, (findFile disk path fuel start).isSome = true) ∧
      ∀ sect sect', Visits disk path start sect → scanStep disk path sect () = some sect' →
        position sect < position sect') ↔
    ∀ sect hdr, Visits disk path start sect → PassesHeader disk path sect hdr →
      span hdr % 2^23 ≠ 0 ∧ sect % 2^23 + span hdr % 2^23 < 2^23 := by
  constructor
  · rintro ⟨-, hrise⟩ sect hdr hvisit hpass
    exact advances_iff.mp (hrise sect _ hvisit (scanStep_eq_some_iff.mpr ⟨hdr, hpass, rfl⟩))
  · intro h
    refine ⟨⟨2^32, findFile_ends h .start (Nat.le_add_left _ _)⟩, ?_⟩
    intro sect sect' hvisit hstep
    obtain ⟨hdr, hpass, rfl⟩ := scanStep_eq_some_iff.mp hstep
    exact advances_iff.mpr (h sect hdr hvisit hpass)

/-- A header whose size is a multiple of all offsets is followed by itself. -/
theorem findFile_still (h : PassesHeader disk path start hdr) (hspan : span hdr % 2^23 = 0)
    (hpos : position sect = position start) (fuel : Nat) : findFile disk path fuel sect = none := by
  induction fuel generalizing sect with
  | zero => rfl
  | succ fuel ih =>
    have hpass : PassesHeader disk path sect hdr := ⟨(readTarHeader_congr hpos).trans h.1, h.2⟩
    have hnext : position (nextSect hdr sect) = position start := by
      rw [← hpos, position_eq, position_eq, nextSect_mod, hspan]
      omega
    rw [findFile_passes hpass, ih hnext]

section HugeFile

variable {e : Entry} (hsize : e.contents.length = 2^32 - 512)
include hsize

theorem span_huge : span e.header = 2^23 := by
  rw [span, Entry.fileSize_header, hsize, u64_of_lt (by decide)]
  decide

theorem nextSect_huge : nextSect e.header 0 = 2^23 := by
  change u64 (0 + span e.header) = _
  rw [span_huge hsize, zero_add, u64_of_lt (by decide)]

end HugeFile

theorem passesHeader_alone (e : Entry) (hpath : 0 ∉ path) (hname : e.name ≠ path) :
    PassesHeader (ramdisk e.header) path 0 e.header := by
  constructor
  · have h : readTarHeader (ramdisk ([] ++ (e.header ++ []))) 0 = some e.header := by
      apply readTarHeader_entry e (by simp)
      rw [nil_append, append_nil, Entry.header_length]
      decide
    rwa [nil_append, append_nil] at h
  · intro h
    exact hname ((e.memcmp_header_iff hpath).mp h)

/-- On a disk of one block, the header of a file whose contents are missing, the search for
another name never ends. -/
theorem findFile_loops : ∃ e : Entry, e.name = [97] ∧ e.contents.length = 2^32 - 512 ∧
    (∀ fuel, findFile (ramdisk e.header) [98] fuel 0 = none) ∧
      scanStep (ramdisk e.header) [98] 0 () = some (2^23) ∧ position (2^23) = position 0 := by
  obtain ⟨contents, hsize⟩ : ∃ contents : List UInt8, contents.length = 2^32 - 512 :=
    ⟨replicate _ 0, length_replicate⟩
  obtain ⟨e, hname, hcontents⟩ : ∃ e : Entry, e.name = [97] ∧ e.contents = contents :=
    ⟨letterEntry 97 contents (by decide) (by rw [hsize]; decide), rfl, rfl⟩
  rw [← hcontents] at hsize
  have hpass := passesHeader_alone e (show 0 ∉ ([98] : List UInt8) by decide) (by rw [hname]; decide)
  refine ⟨e, hname, hsize, ?_, ?_, ?_⟩
  · exact findFile_still hpass (by rw [span_huge hsize, Nat.mod_self]) rfl
  · exact scanStep_eq_some_iff.mpr ⟨_, hpass, nextSect_huge hsize⟩
  · rw [position_eq, position_eq, Nat.mod_self, Nat.zero_mod]

end Comus.Fs
