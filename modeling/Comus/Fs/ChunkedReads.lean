import Comus.Fs.DiskReads
import Comus.Fs.Opening

/-!
# Reading a file in pieces

A program reads a file by one `tar_read` after the other, each of a size of its own
choice, until the offset is the length. The loader copies a segment in this way. What
it gets does not depend on the sizes.
-/

namespace Comus.Fs

open Word List

def readChunks (disk : Disk) : TarFile → List Nat → List (Int × List UInt8)
  | _, [] => []
  | f, size :: sizes =>
    if f.offset = f.len then []
    else
      let r := tarRead disk f size
      (r.1, r.2.1) :: readChunks disk r.2.2 sizes

variable {pre post : List Entry} {e : Entry} {offset n size : Nat}

theorem archive_split (pre post : List Entry) (e : Entry) : ∃ front rest,
    archive (pre ++ e :: post) = front ++ (e.contents ++ rest) ∧ front.length = (sectors pre + 1) * TAR_SIZE := by
  refine ⟨pre.flatMap Entry.bytes ++ e.header,
    (range (e.blocks * TAR_SIZE - e.contents.length)).map e.padding ++ archive post, ?_, ?_⟩
  · simp only [archive, flatMap_append, flatMap_cons, Entry.bytes, Entry.data, append_assoc]
  · rw [length_append, entries_length, Entry.header_length]
    ring

theorem diskReadRd_entry (h : offset + n ≤ e.contents.length) (hn : 1 ≤ n) (hint : n < 2^31) :
    diskReadRd (archive (pre ++ e :: post)) ((sectors pre + 1) * TAR_SIZE + offset) n =
      ((n : Int), (e.contents.drop offset).take n) := by
  obtain ⟨front, rest, hsplit, hfront⟩ := archive_split pre post e
  rw [hsplit, ← hfront, diskReadRd, if_neg (by simp only [length_append]; omega)]
  dsimp only
  rw [if_neg (by simp only [length_append]; omega), toI32_of_lt (by omega) (by omega), drop_append,
    drop_eq_nil_of_le (by omega), nil_append, Nat.add_sub_cancel_left,
    drop_append_of_le_length (by omega), take_append_of_le_length (by rw [length_drop]; omega)]

section Reads

variable (hlen : e.contents.length < 2^31) (hsize : (archive (pre ++ e :: post)).length < 2^64)
include hlen hsize

theorem tarRead_entry (hoffset : offset < e.contents.length) (hpos : 0 < size) :
    let n := min size (e.contents.length - offset)
    tarRead (ramdisk (archive (pre ++ e :: post))) ⟨.reg, e.contents.length, offset, sectors pre⟩ size =
      ((n : Int), (e.contents.drop offset).take n, ⟨.reg, e.contents.length, offset + n, sectors pre⟩) := by
  intro n
  have hn : n = min size (e.contents.length - offset) := rfl
  have hacc : Accesses ⟨.reg, e.contents.length, offset, sectors pre⟩ size
      ((sectors pre + 1) * TAR_SIZE + offset) n := by
    refine ⟨rfl, ?_, by omega, ?_⟩
    · rw [sub64_of_le hoffset.le (by omega), toI64_of_lt (by omega) (by omega)]
      omega
    · obtain ⟨front, rest, hsplit, hfront⟩ := archive_split pre post e
      rw [hsplit] at hsize
      simp only [length_append] at hsize
      have hlt : (sectors pre + 1) * TAR_SIZE + offset < 2^64 := by omega
      exact u64_of_lt hlt
  rw [hacc.tarRead_eq, show (ramdisk _).read _ _ = _ from diskReadRd_entry (by omega) hacc.pos (by omega)]
  dsimp only
  rw [← Nat.cast_add, toU64_natCast, u64_of_lt (by omega)]

theorem readChunks_entry (sizes : List Nat) (hpos : ∀ size ∈ sizes, 0 < size) (hoffset : offset ≤ e.contents.length) :
    let rs := readChunks (ramdisk (archive (pre ++ e :: post))) ⟨.reg, e.contents.length, offset, sectors pre⟩ sizes
    (rs.map Prod.snd).flatten = (e.contents.drop offset).take (min sizes.sum (e.contents.length - offset)) ∧
      ∀ r ∈ rs, r.1 = r.2.length := by
  induction sizes generalizing offset with
  | nil => simp [readChunks]
  | cons size sizes ih =>
    rw [readChunks]
    dsimp only
    by_cases hend : offset = e.contents.length
    · rw [if_pos hend]
      simp [hend]
    · rw [if_neg hend, tarRead_entry hlen hsize (by omega) (hpos size (by simp))]
      generalize hn : min size (e.contents.length - offset) = n
      obtain ⟨hbytes, hrets⟩ := @ih (offset + n) (fun s hs => hpos s (by simp [hs])) (by omega)
      dsimp only
      constructor
      · rw [map_cons, flatten_cons, hbytes, ← drop_drop, ← take_add, sum_cons]
        congr 1
        omega
      · intro r hr
        rcases mem_cons.mp hr with rfl | hr
        · dsimp only
          rw [length_take, length_drop]
          omega
        · exact hrets r hr

end Reads

/-- The pieces of a file that has been opened make up its beginning, whatever their sizes are. In
an archive below four gigabytes this is the file that `tar_open` finds under its name. -/
theorem readChunks_eq_take (pre post : List Entry) (e : Entry) (hlen : e.contents.length < 2^31)
    (hsize : (archive (pre ++ e :: post)).length < 2^64) (f : TarFile)
    (hopen : tarOpen O_RDONLY e.contents.length (sectors pre) = some f) (sizes : List Nat)
    (hpos : ∀ size ∈ sizes, 0 < size) :
    ((readChunks (ramdisk (archive (pre ++ e :: post))) f sizes).map Prod.snd).flatten =
      e.contents.take (min sizes.sum e.contents.length) ∧
    (∀ r ∈ readChunks (ramdisk (archive (pre ++ e :: post))) f sizes, r.1 = r.2.length) ∧
    ((archive (pre ++ e :: post)).length < 2^32 → (∀ e' ∈ pre, e'.name ≠ e.name) → ∀ v out, ∃ fuel,
      tarOpenPath (ramdisk (archive (pre ++ e :: post))) e.name O_RDONLY true fuel v out =
        some (NOERROR_TAR, some f)) := by
  obtain rfl : (⟨.reg, e.contents.length, 0, sectors pre⟩ : TarFile) = f := Option.some.inj hopen
  obtain ⟨hbytes, hrets⟩ := readChunks_entry hlen hsize sizes hpos (Nat.zero_le _)
  refine ⟨by simpa using hbytes, hrets, ?_⟩
  intro hsmall hpre v out
  obtain ⟨hfound, -⟩ := findFile_from e.name_null (pre ++ e :: post) [] 0 _ (by simp) hsmall (Nat.lt_succ_self _)
  refine ⟨_, tarOpenPath_eq_some_iff.mpr ⟨_, hfound pre e post rfl rfl hpre, ?_⟩⟩
  rw [Locals.after, Entry.fileSize_header, zero_add, if_pos rfl]

theorem readChunks_eq_take_one :
    ((readChunks (ramdisk (archive oneFile)) ⟨.reg, 3, 0, 0⟩ [2, 5, 1]).map Prod.snd).flatten = [1, 2, 3] :=
  (readChunks_eq_take [] [] (letterEntry 97 [1, 2, 3] (by decide) (by decide)) (by decide)
    (oneFile_length.trans (by decide)) _ rfl [2, 5, 1] (by decide)).1

end Comus.Fs
