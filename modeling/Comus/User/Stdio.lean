import Comus.Fs.Archive
import Comus.Fs.Descriptors
import Comus.Fs.Disks
import Comus.Lib.Bytes

/-!
# Reading characters (user/lib/fread.c)

`fgetc` reads one byte into a variable of type `int` that it never sets, and
takes any positive number from `read` for a byte. The bytes of the stack before
each call are a parameter, as is the kernel's answer to the mapping of the
buffer.
-/

namespace Comus.User

open Word Fs Bytes Option List Function

variable {fd : Int} {mapped : Bool} {bytes : List UInt8}

def EOF : Int := -1

def sysReadBytes (disk : Disk) (s : Files) (fd : Int) (mapped : Bool) (nbytes : Nat) :
    Option (Int × List UInt8 × Files) :=
  if !mapped then some (-1, [], s)
  else if getFilePtr s fd = 0 then some (-1, [], s)
  else
    (s.objects (getFilePtr s fd)).map fun file =>
      let r := tarRead disk file nbytes
      (r.1, r.2.1, { s with objects := update s.objects (getFilePtr s fd) (some r.2.2) })

theorem sysRead_eq (disk : Disk) (s : Files) (fd : Int) (mapped : Bool) (nbytes : Nat) :
    sysRead disk s fd mapped nbytes =
      (sysReadBytes disk s fd mapped nbytes).map fun r => (r.1, r.2.2) := by
  unfold sysRead sysReadBytes
  split_ifs with hmapped hptr
  · rfl
  · rfl
  · rw [Option.map_map]
    rfl

/-- The loop of `fread` from round `i` on with `n` rounds left: the number returned, the
memory from the start of the buffer on, and the files. -/
def freadFrom (disk : Disk) (fd : Int) (mapped : Nat → Bool) (size : Nat) :
    Nat → Nat → Memory → Files → Option (Nat × Memory × Files)
  | i, 0, buf, s => some (i, buf, s)
  | i, n + 1, buf, s =>
    match sysReadBytes disk s fd (mapped i) size with
    | none => none
    | some (ret, bytes, s) =>
      let buf := copyInto buf (i * size) bytes
      if ret < 1 then some (i, buf, s) else freadFrom disk fd mapped size (i + 1) n buf s

/-- A stream is its descriptor, cast to a pointer. -/
def fread (disk : Disk) (s : Files) (mapped : Nat → Bool) (buf : Memory) (size n stream : Nat) :
    Option (Nat × Memory × Files) :=
  freadFrom disk (toI32 stream) mapped size 0 n buf s

def intAt (c : Memory) : Int := toI32 (loadLe c 0 4)

/-- The variable `c` is whatever the stack holds. -/
def fgetc (disk : Disk) (s : Files) (mapped : Bool) (c : Memory) (stream : Nat) : Option (Int × Files) :=
  match fread disk s (fun _ => mapped) c 1 1 stream with
  | none => none
  | some (n, c, s) => if n < 1 then some (EOF, s) else some (intAt c, s)

def fgetcs (disk : Disk) (stream : Nat) (mapped : Nat → Bool) (stack : Nat → Memory) (s : Files) :
    Nat → Option (List Int × Files)
  | 0 => some ([], s)
  | n + 1 =>
    match fgetcs disk stream mapped stack s n with
    | none => none
    | some (vs, s) =>
      (fgetc disk s (mapped n) (stack n) stream).map fun r => (vs ++ [r.1], r.2)

def charAt (contents : List UInt8) (i : Nat) : Int :=
  match contents[i]? with
  | some b => b.toNat
  | none => EOF

variable {disk : Disk} {s : Files} {f : TarFile} {c : Memory} {stream n : Nat} {b : UInt8}

structure Holds (s : Files) (fd : Int) (f : TarFile) : Prop where
  ptr : getFilePtr s fd ≠ 0
  object : s.objects (getFilePtr s fd) = some f

def moved (s : Files) (fd : Int) (f : TarFile) : Files :=
  { s with objects := update s.objects (getFilePtr s fd) (some f) }

theorem Holds.moved (h : Holds s fd f) (f' : TarFile) : Holds (moved s fd f') fd f' where
  ptr := h.ptr
  object := update_self _ _ _

theorem Holds.moved_self (h : Holds s fd f) : User.moved s fd f = s := by
  unfold User.moved
  rw [← h.object, update_eq_self]

theorem sysReadBytes_holds (h : Holds s fd f) :
    sysReadBytes disk s fd true n = some ((tarRead disk f n).1, (tarRead disk f n).2.1,
      moved s fd (tarRead disk f n).2.2) := by
  unfold sysReadBytes
  rw [if_neg (by simp), if_neg h.ptr, h.object, map_some, moved]

theorem fgetc_of_read {ret : Int} {s' : Files}
    (hread : sysReadBytes disk s (toI32 stream) mapped 1 = some (ret, bytes, s')) :
    fgetc disk s mapped c stream =
      some (if ret < 1 then EOF else intAt (copyInto c 0 bytes), s') := by
  have hloop : fread disk s (fun _ => mapped) c 1 1 stream =
      some (if ret < 1 then 0 else 1, copyInto c 0 bytes, s') := by
    unfold fread freadFrom
    rw [hread]
    by_cases hret : ret < 1
    · simp only [if_pos hret, zero_mul]
    · simp only [if_neg hret, zero_mul, freadFrom, zero_add]
  unfold fgetc
  rw [hloop]
  by_cases hret : ret < 1
  · simp only [if_pos hret, if_pos Nat.one_pos]
  · simp only [if_neg hret, if_neg (lt_irrefl 1)]

theorem fgetc_unread (h : mapped = false ∨ getFilePtr s (toI32 stream) = 0) :
    fgetc disk s mapped c stream = some (EOF, s) := by
  have hread : sysReadBytes disk s (toI32 stream) mapped 1 = some (-1, [], s) := by
    unfold sysReadBytes
    rcases h with rfl | hptr
    · rfl
    · rw [if_pos hptr, ite_self]
  rw [fgetc_of_read hread, if_pos (by decide)]

theorem fgetc_holds (h : Holds s (toI32 stream) f) :
    fgetc disk s true c stream =
      some (if (tarRead disk f 1).1 < 1 then EOF else intAt (copyInto c 0 (tarRead disk f 1).2.1),
        moved s (toI32 stream) (tarRead disk f 1).2.2) :=
  fgetc_of_read (sysReadBytes_holds h)

/-- At the end of the file nothing is stored, and one byte is reported. -/
theorem tarRead_atEnd (hlen : f.len < 2^64) (hend : f.offset = f.len) :
    tarRead disk f 1 = (ERROR_TAR, [], f) := by
  unfold tarRead
  rw [if_pos]
  right
  rw [hend, sub64_of_le le_rfl hlen, tsub_self]
  decide +kernel

theorem fgetc_atEnd (h : Holds s (toI32 stream) f) (hlen : f.len < 2^64) (hend : f.offset = f.len) :
    fgetc disk s true c stream = some (intAt c, s) := by
  have hnone : copyInto c 0 [] = c := by
    funext i
    unfold copyInto
    rw [if_neg (by simp)]
  rw [fgetc_holds h, tarRead_atEnd hlen hend]
  dsimp only
  rw [if_neg (by decide), hnone, h.moved_self]

theorem fgetc_inside {data : List UInt8} (h : Holds s (toI32 stream) f) (htype : f.type = .reg)
    (hoff : f.offset < f.len) (hlen : f.len < 2^64) (hdata : data.length < 2^64)
    (hb : data[(f.sect + 1) * TAR_SIZE + f.offset]? = some b) :
    fgetc (ramdisk data) s true c stream =
      some (intAt (update c 0 b),
        moved s (toI32 stream) { f with offset := f.offset + 1 }) := by
  obtain ⟨hpos, hget⟩ := List.getElem?_eq_some_iff.mp hb
  have hrequest : toI64 ((min (sub64 f.len f.offset) 1 : Nat) : Int) = 1 := by
    rw [sub64_of_le hoff.le hlen, Nat.min_eq_right (by omega)]
    decide +kernel
  have hdisk : (ramdisk data).read ((f.sect + 1) * TAR_SIZE + f.offset) (Int.toNat 1) = (1, [b]) := by
    change diskReadRd data ((f.sect + 1) * TAR_SIZE + f.offset) 1 = _
    unfold diskReadRd
    rw [if_neg (by omega), if_neg (by omega)]
    dsimp only
    rw [drop_eq_getElem_cons hpos, hget, toI32_of_lt (by decide) (by decide)]
    rfl
  have hread : tarRead (ramdisk data) f 1 = (1, [b], { f with offset := f.offset + 1 }) := by
    have hnext : toU64 ((f.offset : Int) + 1) = f.offset + 1 := by
      rw [toU64_of_nonneg (by omega) (by omega)]
      omega
    unfold tarRead
    rw [Nat.cast_min] at hrequest
    rw [htype, hrequest, u64_of_lt (by omega), if_neg (by simp)]
    rw [hdisk]
    dsimp only
    rw [hnext]
  have hstore : copyInto c 0 [b] = update c 0 b := by
    funext i
    unfold copyInto
    by_cases hi : i = 0
    · subst hi
      simp
    · rw [if_neg (by simp; omega), update_of_ne hi]
  rw [fgetc_holds h, hread]
  dsimp only
  rw [if_neg (by decide), hstore]

variable {mapped : Nat → Bool} {stack : Nat → Memory}

theorem fgetcs_of_const {v : Nat → Int}
    (h : ∀ k, fgetc disk s (mapped k) (stack k) stream = some (v k, s)) (n : Nat) :
    fgetcs disk stream mapped stack s n = some ((range n).map v, s) := by
  induction n with
  | zero => rfl
  | succ n ih =>
    unfold fgetcs
    rw [ih]
    dsimp only
    rw [h n, range_succ, map_append]
    rfl

/-- What the calls return if every buffer is mapped: the lowest byte is the file's until
the end, the others are those of the stack, and there is no end of file. -/
def leakAt (contents : List UInt8) (stack : Nat → Memory) (i : Nat) : Int :=
  match contents[i]? with
  | some b => intAt (update (stack i) 0 b)
  | none => intAt (stack i)

def entryFile (pre : List Entry) (e : Entry) (offset : Nat) : TarFile :=
  ⟨.reg, fileSize e.header, offset, sectors pre⟩

theorem fgetcs_eq {pre post : List Entry} {e : Entry} (hsize : (archive (pre ++ e :: post)).length < 2^64)
    (h : Holds s (toI32 stream) (entryFile pre e 0)) (n : Nat) :
    ∃ s', fgetcs (ramdisk (archive (pre ++ e :: post))) stream (fun _ => true) stack s n =
        some ((range n).map (leakAt e.contents stack), s') ∧
      Holds s' (toI32 stream) (entryFile pre e (min n e.contents.length)) := by
  have hlen : fileSize e.header = e.contents.length := e.fileSize_header
  have hfile : ∀ k, (entryFile pre e k).len < 2^64 := by
    intro k
    change fileSize e.header < 2^64
    rw [hlen]
    exact e.size_lt.trans (by norm_num)
  induction n with
  | zero =>
    refine ⟨s, rfl, ?_⟩
    rw [Nat.zero_min]
    exact h
  | succ n ih =>
    obtain ⟨s', hrun, hholds⟩ := ih
    have hnext : ∀ {v s''}, fgetc (ramdisk (archive (pre ++ e :: post))) s' true (stack n) stream =
        some (v, s'') → v = leakAt e.contents stack n →
        fgetcs (ramdisk (archive (pre ++ e :: post))) stream (fun _ => true) stack s (n + 1) =
          some ((range (n + 1)).map (leakAt e.contents stack), s'') := by
      intro v s'' hcall hv
      unfold fgetcs
      rw [hrun]
      dsimp only
      rw [hcall, range_succ, map_append, hv]
      rfl
    by_cases hn : n < e.contents.length
    · -- the offset is the number of calls
      rw [min_eq_left hn.le] at hholds
      have hbyte : (archive (pre ++ e :: post))[(sectors pre + 1) * TAR_SIZE + n]? =
          some e.contents[n] := by
        rw [archive_getElem pre post e hn, getElem?_eq_getElem hn]
      have hoff : (entryFile pre e n).offset < (entryFile pre e n).len := hn.trans_eq hlen.symm
      refine ⟨_, hnext (fgetc_inside hholds rfl hoff (hfile n) hsize hbyte) ?_, ?_⟩
      · unfold leakAt
        rw [getElem?_eq_getElem hn]
      · rw [min_eq_left hn]
        exact hholds.moved _
    · rw [min_eq_right (not_lt.mp hn)] at hholds
      refine ⟨s', hnext (fgetc_atEnd hholds (hfile _) hlen.symm) ?_, ?_⟩
      · unfold leakAt
        rw [getElem?_eq_none (not_lt.mp hn)]
      · rw [Nat.min_eq_right (by omega)]
        exact hholds

section Opened

variable {s₀ : Files} {i : Fin 64} {len sect addr : Nat}

theorem toI32_stream (i : Fin 64) : toI32 ((i.1 + 3 : Nat) : Int) = (i.1 : Int) + 3 := by
  have hi := i.2
  rw [toI32_of_lt (by omega) (by omega)]
  push_cast
  rfl

variable (hopen : sysOpen s₀ O_RDONLY len sect addr = ((i.1 : Int) + 3, s))
include hopen

theorem opened_ptr : getFilePtr s (toI32 ((i.1 + 3 : Nat) : Int)) = addr := by
  rw [toI32_stream, getFilePtr_add]
  unfold sysOpen at hopen
  cases hfree : firstFree s₀ with
  | none =>
    simp only [hfree, Prod.mk.injEq] at hopen
    omega
  | some j =>
    simp only [hfree, tarOpen, ne_eq, not_true_eq_false, if_false, Prod.mk.injEq] at hopen
    obtain ⟨hfd, rfl⟩ := hopen
    obtain rfl : j = i := Fin.ext (by omega)
    exact update_self _ _ _

theorem opened_holds (haddr : addr ≠ 0) :
    Holds s (toI32 ((i.1 + 3 : Nat) : Int)) ⟨.reg, len, 0, sect⟩ := by
  have hptr := opened_ptr hopen
  refine ⟨hptr ▸ haddr, ?_⟩
  rw [hptr]
  unfold sysOpen at hopen
  cases hfree : firstFree s₀ with
  | none =>
    simp only [hfree, Prod.mk.injEq] at hopen
    omega
  | some j =>
    simp only [hfree, tarOpen, ne_eq, not_true_eq_false, if_false, Prod.mk.injEq] at hopen
    obtain ⟨-, rfl⟩ := hopen
    exact update_self _ _ _

end Opened

def stackByte (b : UInt8) : Memory := fun i => if i = 1 then b else 0

/-- The second byte of the variable is not overwritten. -/
theorem intAt_stackByte (hone : bytes.length ≤ 1) :
    intAt (copyInto (stackByte 0) 0 bytes) ≠ intAt (copyInto (stackByte 1) 0 bytes) := by
  have hbyte : ∀ b i, copyInto (stackByte b) 0 bytes i =
      if i = 0 then bytes.getD 0 0 else stackByte b i := by
    intro b i
    unfold copyInto stackByte
    by_cases hi : i = 0
    · subst hi
      cases bytes <;> simp
    · rw [if_neg (by omega), if_neg hi]
  have hint : ∀ b : UInt8, b.toNat < 128 → intAt (copyInto (stackByte b) 0 bytes) =
      (bytes.getD 0 0).toNat + 256 * b.toNat := by
    intro b hb
    have hlow := (bytes.getD 0 0).toNat_lt
    have hload : loadLe (copyInto (stackByte b) 0 bytes) 0 4 =
        (bytes.getD 0 0).toNat + 256 * b.toNat := by
      simp [loadLe, hbyte, stackByte]
    unfold intAt
    rw [hload, toI32_of_lt (by omega) (by omega)]
    push_cast
    rfl
  rw [hint 0 (by decide), hint 1 (by decide)]
  simp

/-- The calls return the bytes of a file and then the end of file, whatever the stack held,
for no file but an empty one of which no read is ever served. -/
theorem fgetc_sequence_iff (pre post : List Entry) (e : Entry) (s₀ s : Files) (i : Fin 64) (addr : Nat)
    (hopen : sysOpen s₀ O_RDONLY (fileSize e.header) (sectors pre) addr = ((i.1 : Int) + 3, s))
    (mapped : Nat → Bool) :
    (∀ stack n, ∃ s', fgetcs (ramdisk (archive (pre ++ e :: post))) (i.1 + 3) mapped stack s n =
      some ((range n).map (charAt e.contents), s')) ↔
    e.contents = [] ∧ ∀ k, mapped k = false ∨ addr = 0 := by
  have hptr := opened_ptr hopen
  constructor
  · intro h
    have hfirst : ∀ c : Memory, ∃ s',
        fgetc (ramdisk (archive (pre ++ e :: post))) s (mapped 0) c (i.1 + 3) =
          some (charAt e.contents 0, s') := by
      intro c
      obtain ⟨s', hs'⟩ := h (fun _ => c) 1
      unfold fgetcs fgetcs at hs'
      dsimp only at hs'
      obtain ⟨⟨v, s''⟩, hcall, hv⟩ := map_eq_some_iff.mp hs'
      have hv' : v = charAt e.contents 0 := by simpa using congrArg (fun r => r.1.head?) hv
      exact ⟨s'', hv' ▸ hcall⟩
    have hempty : e.contents = [] := by
      by_contra hne
      obtain ⟨b, rest, hcontents⟩ := exists_cons_of_ne_nil hne
      have hnot : charAt e.contents 0 ≠ EOF := by
        rw [hcontents]
        change (b.toNat : Int) ≠ -1
        omega
      by_cases hread : mapped 0 = false ∨ addr = 0
      · obtain ⟨s', hcall⟩ := hfirst fun _ => 0
        rw [fgetc_unread (hptr ▸ hread)] at hcall
        exact hnot (congrArg Prod.fst (some.inj hcall)).symm
      · rw [not_or, Bool.not_eq_false] at hread
        have hvalue : ∀ c, intAt (copyInto c 0 (tarRead (ramdisk (archive (pre ++ e :: post)))
            (entryFile pre e 0) 1).2.1) = charAt e.contents 0 := by
          intro c
          obtain ⟨s', hcall⟩ := hfirst c
          rw [hread.1, fgetc_holds (opened_holds hopen hread.2)] at hcall
          have hv := congrArg Prod.fst (some.inj hcall)
          dsimp only at hv
          split_ifs at hv with hret
          · exact absurd hv.symm hnot
          · exact hv
        exact intAt_stackByte (tarRead_length_le _ _ _) ((hvalue _).trans (hvalue _).symm)
    refine ⟨hempty, fun k => ?_⟩
    by_contra hread
    rw [not_or, Bool.not_eq_false] at hread
    have hholds := opened_holds hopen hread.2
    have hzero : fileSize e.header = 0 := by
      rw [e.fileSize_header, hempty]
      rfl
    -- no call moves the offset of an empty file
    have hconst : ∀ j, fgetc (ramdisk (archive (pre ++ e :: post))) s (mapped j) (fun _ => 0) (i.1 + 3) =
        some (if mapped j = true then intAt fun _ => 0 else EOF, s) := by
      intro j
      by_cases hj : mapped j = true
      · rw [hj, if_pos rfl, fgetc_atEnd hholds (hzero.trans_lt (by norm_num)) hzero.symm]
      · rw [if_neg hj, fgetc_unread (.inl (Bool.not_eq_true _ ▸ hj))]
    obtain ⟨s', hs'⟩ := h (fun _ _ => 0) (k + 1)
    rw [fgetcs_of_const hconst] at hs'
    have hlast := congrArg (fun r => r.1[k]?) (some.inj hs')
    simp [hempty, hread.1, charAt] at hlast
    exact absurd hlast (by decide +kernel)
  · rintro ⟨hempty, hread⟩ stack n
    have hconst : ∀ k, fgetc (ramdisk (archive (pre ++ e :: post))) s (mapped k) (stack k) (i.1 + 3) =
        some (charAt e.contents k, s) := by
      intro k
      rw [fgetc_unread (hptr ▸ hread k), hempty]
      rfl
    exact ⟨s, fgetcs_of_const hconst n⟩

def letterA : Entry := letterEntry 97 [65] letter_ne_zero (by decide)

def noFiles : Files := ⟨fun _ => 0, fun _ => none, fun _ => false⟩

def openedA (addr : Nat) : Files := (sysOpen noFiles O_RDONLY (fileSize letterA.header) 0 addr).2

theorem fgetc_sequence_letter :
    ¬ ∀ stack n, ∃ s', fgetcs (ramdisk (archive [letterA])) 3 (fun _ => true) stack (openedA 4096) n =
      some ((range n).map (charAt [65]), s') := by
  intro h
  have hcond := (fgetc_sequence_iff [] [] letterA noFiles (openedA 4096) 0 4096 rfl fun _ => true).mp h
  exact absurd hcond.1 (by decide)

/-- The stack had a one in the second byte: the letter is returned as 321, and the end of the
file as 256. -/
theorem fgetc_returns_stack :
    ∃ s', fgetcs (ramdisk (archive [letterA])) 3 (fun _ => true) (fun _ => stackByte 1) (openedA 4096) 2 =
      some ([321, 256], s') := by
  have hsize : (archive ([] ++ letterA :: [])).length < 2^64 := by
    rw [archive_length]
    decide
  have hopen : sysOpen noFiles O_RDONLY (fileSize letterA.header) 0 4096 =
      (((0 : Fin 64).1 : Int) + 3, openedA 4096) := rfl
  have hholds : Holds (openedA 4096) (toI32 ((3 : Nat) : Int)) (entryFile [] letterA 0) :=
    opened_holds hopen (by decide)
  obtain ⟨s', hrun, -⟩ := fgetcs_eq hsize hholds 2
  refine ⟨s', hrun.trans ?_⟩
  have hvalues : (range 2).map (leakAt letterA.contents fun _ => stackByte 1) = [321, 256] := by
    decide +kernel
  rw [hvalues]

end Comus.User
