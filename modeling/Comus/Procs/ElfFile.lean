import Comus.Fs.TarRuns
import Comus.Procs.Exec

/-!
# Program files

The bytes of a program file, the headers in them, and what `user_load_elf` reads from
a file whose bytes a disk delivers.
-/

namespace Comus.Procs

open Word Fs List

structure FileOn (disk : Disk) (f : TarFile) (content : List UInt8) : Prop where
  type : f.type = .reg
  len : f.len = content.length
  fits : (f.sect + 1) * TAR_SIZE + content.length < 2^63
  read : ∀ off n, 1 ≤ n → n ≤ BLOCK_SIZE → off + n ≤ content.length →
    disk.read ((f.sect + 1) * TAR_SIZE + off) n = ((n : Int), (content.drop off).take n)

variable {disk : Disk} {f f' : TarFile} {content : List UInt8} {e e' : Extra}

theorem FileOn.moved (h : FileOn disk f content) (offset : Nat) :
    FileOn disk { f with offset := offset } content := ⟨h.type, h.len, h.fits, h.read⟩

theorem FileOn.tarRead_eq (h : FileOn disk f content) {n : Nat} (hn : 1 ≤ n) (hblock : n ≤ BLOCK_SIZE)
    (hoff : f.offset + n ≤ content.length) :
    tarRead disk f n =
      ((n : Int), (content.drop f.offset).take n, { f with offset := f.offset + n }) := by
  have hfits := h.fits
  have hleft : sub64 f.len f.offset = content.length - f.offset := by
    rw [h.len, sub64_of_le (by omega) (by omega)]
  have hsize : toI64 ((min (sub64 f.len f.offset) n : Nat) : Int) = (n : Int) := by
    rw [hleft, min_eq_right (by omega), toI64_of_lt (by omega)]
    have hlt : n < 2^63 := by omega
    exact_mod_cast hlt
  have hacc : Accesses f n ((f.sect + 1) * TAR_SIZE + f.offset) n :=
    ⟨h.type, by rw [← Nat.cast_min]; exact hsize, hn, u64_of_lt (by omega)⟩
  rw [hacc.tarRead_eq, h.read _ _ hn hblock hoff]
  have hnext : toU64 ((f.offset : Int) + (n : Int)) = f.offset + n := by
    rw [← Nat.cast_add, toU64_natCast, u64_of_lt (by omega)]
  dsimp only
  rw [hnext]

theorem toU64_toI64 {n : Nat} (h : n < 2^64) : toU64 (toI64 (n : Int)) = n := by
  unfold toU64 toI64
  split_ifs <;> omega

theorem tarSeek_set {n : Nat} (h : n < 2^64) (f : TarFile) :
    (tarSeek f (toI64 (n : Int)) SEEK_SET).2 = { f with offset := n } := by
  unfold tarSeek
  rw [if_pos rfl, toU64_toI64 h]

theorem readLe_lt {n : Nat} (b : Fin n → UInt8) (off width : Nat) : readLe b off width < 256 ^ width := by
  induction width generalizing off with
  | zero => exact Nat.one_pos
  | succ width ih =>
    have hbyte : byteAt b off < 256 := by
      unfold byteAt
      split_ifs
      · exact UInt8.toNat_lt _
      · norm_num
    have hrest := ih (off + 1)
    unfold readLe
    rw [pow_succ]
    omega

def ehdrOf (content : List UInt8) : Fin 64 → UInt8 := fun i => content.getD i.1 0

def phdrsOf (content : List UInt8) : List Phdr :=
  (range (ePhnum (ehdrOf content))).map
    (phdr fun i : Fin 896 => content.getD (ePhoff (ehdrOf content) + i.1) 0)

structure HeadersInside (content : List UInt8) : Prop where
  header : 64 ≤ content.length
  table : ePhoff (ehdrOf content) + sizeofPhdr * ePhnum (ehdrOf content) ≤ content.length

theorem storeBytes_take {n : Nat} (dst : Fin n → UInt8) {off len : Nat} {i : Fin n} (hi : i.1 < len)
    (hoff : off + len ≤ content.length) :
    storeBytes dst ((content.drop off).take len) i = content.getD (off + i.1) 0 := by
  have hlt : off + i.1 < content.length := by omega
  unfold storeBytes
  rw [getElem?_take_of_lt hi, getElem?_drop, getElem?_eq_getElem hlt,
    getD_eq_getElem?_getD, getElem?_eq_getElem hlt]
  rfl

theorem userLoadElf_file (hf : FileOn disk f content) (hin : HeadersInside content)
    (hload : userLoadElf disk e f = (0, e', f')) :
    phdrs e' = phdrsOf content ∧ FileOn disk f' content := by
  -- the header is the one of the file
  have hstart : (tarSeek f 0 SEEK_SET).2 = { f with offset := 0 } := by
    simp [tarSeek, toU64]
  have hread : headerRead disk f = (64, content.take 64, { f with offset := 64 }) := by
    unfold headerRead
    rw [hstart, (hf.moved 0).tarRead_eq (by decide) (by decide) (by simpa [sizeofEhdr] using hin.header)]
    rfl
  have hheader : readHeader disk f e.elfHeader = ehdrOf content := by
    funext i
    unfold readHeader ehdrOf
    rw [hread]
    have hbyte := storeBytes_take e.elfHeader i.2 (show 0 + 64 ≤ content.length by simpa using hin.header)
    rwa [drop_zero, zero_add] at hbyte
  have hok : ElfOk disk f (readHeader disk f e.elfHeader) := by
    by_contra hbad
    exact userLoadElf_of_not_ok hbad (by rw [hload])
  rw [hheader] at hok
  rw [userLoadElf_of_ok (by rw [hheader]; exact hok), hheader] at hload
  obtain ⟨-, rfl, rfl⟩ := Prod.mk.inj hload
  have hfew : ePhnum (ehdrOf content) ≤ 16 := validateElfHdr_phnum hok.valid
  have hoff : ePhoff (ehdrOf content) < 2^64 := readLe_lt _ 32 8
  have hseek : (tarSeek (headerRead disk f).2.2 (toI64 (ePhoff (ehdrOf content))) SEEK_SET).2 =
      { f with offset := ePhoff (ehdrOf content) } := by
    rw [tarSeek_set hoff, hread]
  -- the table as well, unless it is empty
  by_cases hnum : ePhnum (ehdrOf content) = 0
  · have htable : tableRead disk f (ehdrOf content) =
        (ERROR_TAR, [], { f with offset := ePhoff (ehdrOf content) }) := by
      unfold tableRead
      rw [hseek, hnum]
      exact tarRead_of_not_pos disk (by simp [TarFile.request, toI64])
    rw [htable]
    refine ⟨?_, hf.moved _⟩
    unfold phdrs phdrsOf
    simp [readElf, hnum]
  · have htable : tableRead disk f (ehdrOf content) =
        (((sizeofPhdr * ePhnum (ehdrOf content) : Nat) : Int),
          (content.drop (ePhoff (ehdrOf content))).take (sizeofPhdr * ePhnum (ehdrOf content)),
          { f with offset := ePhoff (ehdrOf content) + sizeofPhdr * ePhnum (ehdrOf content) }) := by
      unfold tableRead
      rw [hseek]
      refine (hf.moved (ePhoff (ehdrOf content))).tarRead_eq ?_ ?_ hin.table
      · unfold sizeofPhdr
        omega
      · unfold sizeofPhdr BLOCK_SIZE PAGE_SIZE
        omega
    refine ⟨?_, by rw [htable]; exact hf.moved _⟩
    have hcongr : phdrs (readElf disk f e (ehdrOf content)) =
        phdrs { readElf disk f e (ehdrOf content) with
          elfSegments := fun i => content.getD (ePhoff (ehdrOf content) + i.1) 0 } := by
      refine phdrs_congr rfl fun i hi => ?_
      have hi' : i < sizeofPhdr * ePhnum (ehdrOf content) := hi
      have hlt : i < 896 := by
        unfold sizeofPhdr at hi'
        omega
      unfold byteAt readElf
      rw [dif_pos hlt, dif_pos hlt, htable]
      exact congrArg UInt8.toNat (storeBytes_take e.elfSegments hi' hin.table)
    exact hcongr

end Comus.Procs
