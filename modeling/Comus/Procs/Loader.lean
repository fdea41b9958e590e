import Comus.Fs.Tar
import Comus.Procs.Clone

/-!
# Loading a program (kernel/user.c)

`user_load` reads the ELF header and the program headers of a file into the
control block of the running process and loads from there. A short read leaves
the old bytes of the block where the file has none, and neither the end of the
file nor a failing disk is a negative number, so the loader goes on with them.
-/

namespace Comus.Procs

open Word Fs Option List Function

variable {i : Nat} {bytes : List UInt8}

def byteAt {n : Nat} (b : Fin n → UInt8) (i : Nat) : Nat :=
  if h : i < n then (b ⟨i, h⟩).toNat else 0

def readLe {n : Nat} (b : Fin n → UInt8) (off : Nat) : (width : Nat) → Nat
  | 0 => 0
  | width + 1 => byteAt b off + 256 * readLe b (off + 1) width

def storeBytes {n : Nat} (dst : Fin n → UInt8) (bytes : List UInt8) : Fin n → UInt8 :=
  fun i => (bytes[i.1]?).getD (dst i)

def eType (h : Fin 64 → UInt8) : Nat := readLe h 16 2
def eMachine (h : Fin 64 → UInt8) : Nat := readLe h 18 2
def eEntry (h : Fin 64 → UInt8) : Nat := readLe h 24 8
def ePhoff (h : Fin 64 → UInt8) : Nat := readLe h 32 8
def ePhnum (h : Fin 64 → UInt8) : Nat := readLe h 56 2

/-- The header is used up to `e_phnum`. -/
def usedEhdr : Nat := 58

def N_ELF_SEGMENTS : Nat := 16

def validateElfHdr (h : Fin 64 → UInt8) : Bool :=
  decide (byteAt h 0 = 0x7f ∧ byteAt h 1 = 0x45 ∧ byteAt h 2 = 0x4c ∧ byteAt h 3 = 0x46) &&
    decide (byteAt h 4 = 2) && decide (byteAt h 5 = 1) && decide (eMachine h = 62) &&
    decide (byteAt h 6 = 1) && decide (¬ ePhnum h > N_ELF_SEGMENTS) && decide (eType h = 2)

structure Phdr where
  type : Nat
  offset : Nat
  vaddr : Nat
  filesz : Nat
  memsz : Nat
  deriving Repr, DecidableEq

def phdr (segments : Fin 896 → UInt8) (idx : Nat) : Phdr where
  type := readLe segments (sizeofPhdr * idx) 4
  offset := readLe segments (sizeofPhdr * idx + 8) 8
  vaddr := readLe segments (sizeofPhdr * idx + 16) 8
  filesz := readLe segments (sizeofPhdr * idx + 32) 8
  memsz := readLe segments (sizeofPhdr * idx + 40) 8

/-- `user_load_elf`: the result, the block's ELF data and the file after it. -/
def userLoadElf (disk : Disk) (b : Extra) (file : TarFile) : Int × Extra × TarFile :=
  let (pos, file) := tarSeek file 0 SEEK_SET
  if pos < 0 then (1, b, file)
  else
    let (ret, bytes, file) := tarRead disk file sizeofEhdr
    let b := { b with elfHeader := storeBytes b.elfHeader bytes }
    if ret < 0 then (1, b, file)
    else if !validateElfHdr b.elfHeader then (1, b, file)
    else
      let b := { b with nElfSegments := ePhnum b.elfHeader }
      let (pos, file) := tarSeek file (toI64 (ePhoff b.elfHeader)) SEEK_SET
      if pos < 0 then (1, b, file)
      else
        let (ret, bytes, file) := tarRead disk file (sizeofPhdr * ePhnum b.elfHeader)
        let b := { b with elfSegments := storeBytes b.elfSegments bytes }
        if ret < 0 then (1, b, file) else (0, b, file)

/-- The memory functions that `user_load` calls. A null result is zero, `none` a fault. -/
structure LoadOps (μ : Type) where
  memCtxAlloc : μ → Option (Nat × μ)
  memCtxFree : μ → Nat → Option μ
  memCtxPgdir : μ → Nat → Nat
  memAllocPagesAt : μ → Nat → Nat → Nat → Nat → Option (Nat × μ)
  kmapuseraddr : μ → Nat → Nat → Nat → Option (Nat × μ)
  kunmapaddr : μ → Nat → Option μ
  /-- `kalloc` of the load buffer, with what happens to be in it. -/
  kallocBuffer : μ → Option (Option (Nat → UInt8) × μ)
  memcpyv : μ → Nat → List UInt8 → Option μ
  /-- The lengths of the argument strings, read in the caller's context. -/
  argLengths : μ → Nat → Nat → Option (List Nat)

/-- What the loader changes besides the ELF data of the block; `buffer` is `load_buffer`. -/
structure LoadState (μ : Type) where
  heapStart : Nat
  file : TarFile
  buffer : Option (Nat → UInt8)
  mem : μ

def BLOCK_SIZE : Nat := PAGE_SIZE * 1000
def PT_LOAD : Nat := 1

variable {μ : Type} (ops : LoadOps μ) (disk : Disk)

/-- The loop of `user_load_segment` that copies the file to the mapped pages. The result
of the read becomes a `size_t`; a negative one makes a copy over the whole memory. -/
def loadData (mapAddr fileBytes : Nat) : Nat → Nat → LoadState μ → Option (Int × LoadState μ)
  | 0, totalRead, st => if totalRead < fileBytes then none else some (0, st)
  | fuel + 1, totalRead, st =>
    if totalRead < fileBytes then
      let want := if BLOCK_SIZE > fileBytes - totalRead then fileBytes - totalRead else BLOCK_SIZE
      let (n, bytes, file) := tarRead disk st.file want
      let buffer := fun i => (bytes[i]?).getD (st.buffer.getD (fun _ => 0) i)
      let st := { st with file := file, buffer := some buffer }
      let read := toU64 n
      if read < 1 then (ops.kunmapaddr st.mem mapAddr).map fun mem => (1, { st with mem := mem })
      else if BLOCK_SIZE < read then none
      else
        (ops.memcpyv st.mem (u64 (mapAddr + totalRead)) ((range read).map buffer)).bind
          fun mem => loadData mapAddr fileBytes fuel (u64 (totalRead + read)) { st with mem := mem }
    else some (0, st)

def userLoadSegment (memctx : Nat) (hdr : Phdr) (st : LoadState μ) : Option (Int × LoadState μ) :=
  if hdr.type ≠ PT_LOAD then some (0, st)
  else if hdr.filesz > hdr.memsz then some (1, st)
  else
    let memPages := u64 (hdr.memsz + PAGE_SIZE - 1) / PAGE_SIZE
    let filePages := u64 (hdr.filesz + PAGE_SIZE - 1) / PAGE_SIZE
    if filePages < 1 then some (0, st)
    else
      (ops.memAllocPagesAt st.mem memctx memPages hdr.vaddr
        (F_WRITEABLE + F_UNPRIVILEGED)).bind fun (virt, mem) =>
          let st := { st with mem := mem }
          if virt = 0 then some (1, st)
          else
            (ops.kmapuseraddr st.mem memctx hdr.vaddr hdr.memsz).bind fun (mapAddr, mem) =>
              let st := { st with mem := mem }
              if mapAddr = 0 then some (1, st)
              else
                let (pos, file) := tarSeek st.file (toI64 hdr.offset) SEEK_SET
                let st := { st with file := file }
                if pos < 0 then some (1, st)
                else
                  (loadData ops disk mapAddr hdr.filesz hdr.filesz 0 st).bind fun (ret, st) =>
                    if ret ≠ 0 then some (ret, st)
                    else
                      let heapEnd := u64 (hdr.vaddr + memPages * PAGE_SIZE)
                      let st := if heapEnd > st.heapStart then { st with heapStart := heapEnd } else st
                      (ops.kunmapaddr st.mem mapAddr).map fun mem => (0, { st with mem := mem })

def loadEach (memctx : Nat) : List Phdr → LoadState μ → Option (Int × LoadState μ)
  | [], st => some (0, st)
  | hdr :: hdrs, st =>
    (userLoadSegment ops disk memctx hdr st).bind fun (ret, st) =>
      if ret ≠ 0 then some (ret, st) else loadEach memctx hdrs st

def userLoadSegments (memctx : Nat) (hdrs : List Phdr) (st : LoadState μ) :
    Option (Int × LoadState μ) :=
  let st := { st with heapStart := 0 }
  (match st.buffer with
    | some _ => some st
    | none => (ops.kallocBuffer st.mem).map fun (buffer, mem) =>
      { st with buffer := buffer, mem := mem }).bind fun st =>
        if st.buffer.isNone then some (1, st)
        else
          (loadEach ops disk memctx hdrs st).map fun (ret, st) =>
            if ret ≠ 0 then (ret, st) else if st.heapStart = 0 then (1, st) else (0, st)

def USER_STACK_TOP : Nat := 0x800000000000
def USER_STACK_LEN : Nat := 4 * PAGE_SIZE

/-- The first loop of `user_setup_stack`: how many arguments fit the stack. -/
def countArgs : List Nat → (argbytes : Int) → (argc : Nat) → Nat
  | [], _, argc => argc
  | len :: lens, argbytes, argc =>
    let n := toI32 (len + 1)
    if argbytes + n > USER_STACK_LEN then argc else countArgs lens (toI32 (argbytes + n)) (argc + 1)

def startRegs (pgdir entry : Nat) : Reg → Nat
  | .cr3 => pgdir
  | .gs | .fs | .es | .ds | .ss => 0x23
  | .rip => entry
  | .cs => 0x1b
  | .rflags => 0x200
  | .rsp => USER_STACK_TOP
  | _ => 0

def userSetupStack (memctx args argsCtx : Nat) (mem : μ) : Option (Option Nat × μ) :=
  (ops.argLengths mem argsCtx args).bind fun lens =>
    (ops.memAllocPagesAt mem memctx (USER_STACK_LEN / PAGE_SIZE) (USER_STACK_TOP - USER_STACK_LEN)
      (F_WRITEABLE + F_UNPRIVILEGED)).map fun (virt, mem) =>
        if virt = 0 then (none, mem) else (some (countArgs lens 0 0), mem)

def loadFailed (b : Block) (st : LoadState μ) : Option (Int × Block × LoadState μ) :=
  (ops.memCtxFree st.mem b.memctx).map fun mem =>
    (1, { b with memctx := 0 }, { st with mem := mem })

def phdrs (e : Extra) : List Phdr := (range e.nElfSegments).map (phdr e.elfSegments)

def userLoad (args argsCtx : Nat) (b : Block) (file : TarFile) (buffer : Option (Nat → UInt8))
    (mem : μ) : Option (Int × Block × LoadState μ) :=
  (ops.memCtxAlloc mem).bind fun (ctx, mem) =>
    let b := { b with memctx := ctx }
    let st : LoadState μ := ⟨b.heapStart, file, buffer, mem⟩
    if ctx = 0 then loadFailed ops b st
    else
      let (ret, e, file) := userLoadElf disk b.toExtra st.file
      let b := { b with toExtra := e }
      let st := { st with file := file }
      if ret ≠ 0 then loadFailed ops b st
      else
        (userLoadSegments ops disk ctx (phdrs e) st).bind fun (ret, st) =>
          let b := { b with heapStart := st.heapStart, heapLen := 0 }
          if ret ≠ 0 then loadFailed ops b st
          else
            (userSetupStack ops ctx args argsCtx st.mem).bind fun (argc, mem) =>
              let st := { st with mem := mem }
              match argc with
              | none => loadFailed ops b st
              | some argc =>
                some (0,
                  { b with
                    rax := 0, rdi := argc, rsi := 0
                    regs := startRegs (ops.memCtxPgdir mem ctx) (eEntry e.elfHeader) }, st)

def segmentTable (e : Extra) : List Nat :=
  (range (sizeofPhdr * e.nElfSegments)).map (byteAt e.elfSegments)

structure Loaded (μ : Type) where
  entry : Nat
  segments : List Nat
  heapStart : Nat
  memctx : Nat
  mem : μ

def loadOutcome (args argsCtx : Nat) (b : Block) (file : TarFile)
    (buffer : Option (Nat → UInt8)) (mem : μ) : Option (Option (Loaded μ)) :=
  (userLoad ops disk args argsCtx b file buffer mem).map fun (ret, b, st) =>
    if ret ≠ 0 then none
    else some ⟨b.regs .rip, segmentTable b.toExtra, b.heapStart, b.memctx, st.mem⟩

structure Leftover where
  elfHeader : Fin 64 → UInt8
  elfSegments : Fin 896 → UInt8
  heapStart : Nat
  heapLen : Nat
  rax : Nat
  rdi : Nat
  rsi : Nat
  regs : Reg → Nat

def Block.with (b : Block) (l : Leftover) : Block :=
  { b with
    elfHeader := l.elfHeader, elfSegments := l.elfSegments
    heapStart := l.heapStart, heapLen := l.heapLen
    rax := l.rax, rdi := l.rdi, rsi := l.rsi, regs := l.regs }

def headerRead (file : TarFile) : Int × List UInt8 × TarFile :=
  tarRead disk (tarSeek file 0 SEEK_SET).2 sizeofEhdr

def fileHeader (file : TarFile) : Fin 64 → UInt8 :=
  storeBytes (fun _ => 0) (headerRead disk file).2.1

def tableRead (file : TarFile) (h : Fin 64 → UInt8) : Int × List UInt8 × TarFile :=
  tarRead disk (tarSeek (headerRead disk file).2.2 (toI64 (ePhoff h)) SEEK_SET).2
    (sizeofPhdr * ePhnum h)

def FullyRead (file : TarFile) : Prop :=
  usedEhdr ≤ (headerRead disk file).2.1.length ∧
    (tableRead disk file (fileHeader disk file)).2.1.length =
      sizeofPhdr * ePhnum (fileHeader disk file)

variable {ops} {disk} {n : Nat} {b b' : Fin n → UInt8} {h h' : Fin 64 → UInt8} {e e' : Extra}
  {file : TarFile}

theorem readLe_congr {off width : Nat} (hb : ∀ i, off ≤ i → i < off + width →
    byteAt b i = byteAt b' i) : readLe b off width = readLe b' off width := by
  induction width generalizing off with
  | zero => rfl
  | succ width ih =>
    unfold readLe
    rw [hb off le_rfl (by omega), ih fun i hi hi' => hb i (by omega) (by omega)]

theorem byteAt_storeBytes (dst : Fin n → UInt8) (bytes : List UInt8) (hi : i < n) :
    byteAt (storeBytes dst bytes) i =
      if i < bytes.length then ((bytes[i]?).getD 0).toNat else byteAt dst i := by
  unfold byteAt storeBytes
  rw [dif_pos hi, dif_pos hi]
  split_ifs with hlen
  · simp [hlen]
  · simp [getElem?_eq_none (by omega : bytes.length ≤ i)]

theorem byteAt_storeBytes_update {j : Fin n} (hj : bytes.length ≤ j.1) (v : UInt8) (i : Nat) :
    byteAt (storeBytes (update b j v) bytes) i =
      if i = j.1 then v.toNat else byteAt (storeBytes b bytes) i := by
  by_cases hi : i = j.1
  · subst hi
    rw [byteAt_storeBytes _ _ j.2, if_neg (by omega), if_pos rfl]
    simp [byteAt]
  · rw [if_neg hi]
    unfold byteAt storeBytes
    split_ifs with h
    · rw [update_of_ne (by simpa [Fin.ext_iff] using hi)]
    · rfl

theorem ehdr_congr (hb : ∀ i, i < usedEhdr → byteAt h i = byteAt h' i) :
    validateElfHdr h = validateElfHdr h' ∧ eEntry h = eEntry h' ∧ ePhoff h = ePhoff h' ∧
      ePhnum h = ePhnum h' := by
  have hle : ∀ off width, off + width ≤ usedEhdr → readLe h off width = readLe h' off width :=
    fun off width hoff => readLe_congr fun i _ hi => hb i (by omega)
  have hphnum : ePhnum h = ePhnum h' := hle 56 2 (by decide)
  refine ⟨?_, hle 24 8 (by decide), hle 32 8 (by decide), hphnum⟩
  unfold validateElfHdr
  rw [hb 0 (by decide), hb 1 (by decide), hb 2 (by decide), hb 3 (by decide), hb 4 (by decide),
    hb 5 (by decide), hb 6 (by decide), hphnum, show eMachine h = eMachine h' from
      hle 18 2 (by decide), show eType h = eType h' from hle 16 2 (by decide)]

theorem validateElfHdr_phnum (hv : validateElfHdr h = true) : ePhnum h ≤ N_ELF_SEGMENTS := by
  unfold validateElfHdr at hv
  simp only [Bool.and_eq_true, decide_eq_true_eq] at hv
  omega

theorem storeBytes_header_congr (hlen : usedEhdr ≤ bytes.length)
    (dst dst' : Fin 64 → UInt8) (hi : i < usedEhdr) :
    byteAt (storeBytes dst bytes) i = byteAt (storeBytes dst' bytes) i := by
  have hi64 : i < 64 := lt_trans hi (by decide)
  rw [byteAt_storeBytes _ _ hi64, byteAt_storeBytes _ _ hi64, if_pos (by omega), if_pos (by omega)]

def failedOutcome (ops : LoadOps μ) (ctx : Nat) (mem : μ) : Option (Option (Loaded μ)) :=
  (ops.memCtxFree mem ctx).map fun _ => none

def imageOutcome (ops : LoadOps μ) (disk : Disk) (args argsCtx ctx entry : Nat)
    (segments : List Nat) (hdrs : List Phdr) (st : LoadState μ) : Option (Option (Loaded μ)) :=
  (userLoadSegments ops disk ctx hdrs st).bind fun (ret, st) =>
    if ret ≠ 0 then failedOutcome ops ctx st.mem
    else
      (userSetupStack ops ctx args argsCtx st.mem).bind fun (argc, mem) =>
        match argc with
        | none => failedOutcome ops ctx mem
        | some _ => some (some ⟨entry, segments, st.heapStart, ctx, mem⟩)

theorem loadFailed_outcome (b : Block) (st : LoadState μ) :
    (loadFailed ops b st).map (fun r => if r.1 ≠ 0 then none else some (Loaded.mk (r.2.1.regs .rip)
      (segmentTable r.2.1.toExtra) r.2.1.heapStart r.2.1.memctx r.2.2.mem)) =
        failedOutcome ops b.memctx st.mem := by
  unfold loadFailed failedOutcome
  cases ops.memCtxFree st.mem b.memctx <;> simp

theorem loadOutcome_eq (args argsCtx : Nat) (b : Block) (file : TarFile)
    (buffer : Option (Nat → UInt8)) (mem : μ) :
    loadOutcome ops disk args argsCtx b file buffer mem =
      (ops.memCtxAlloc mem).bind fun r =>
        if r.1 = 0 then failedOutcome ops r.1 r.2
        else
          let l := userLoadElf disk b.toExtra file
          if l.1 ≠ 0 then failedOutcome ops r.1 r.2
          else imageOutcome ops disk args argsCtx r.1 (eEntry l.2.1.elfHeader) (segmentTable l.2.1)
            (phdrs l.2.1) ⟨0, l.2.2, buffer, r.2⟩ := by
  unfold loadOutcome userLoad
  cases ops.memCtxAlloc mem with
  | none => rfl
  | some r =>
    obtain ⟨ctx, mem⟩ := r
    simp only [bind_some]
    by_cases hctx : ctx = 0
    · rw [if_pos hctx, if_pos hctx]
      exact loadFailed_outcome _ _
    · rw [if_neg hctx, if_neg hctx]
      obtain ⟨ret, e, file'⟩ := userLoadElf disk b.toExtra file
      dsimp only
      by_cases hret : ret = 0
      · rw [if_neg (not_not.mpr hret), if_neg (not_not.mpr hret)]
        unfold imageOutcome
        -- the heap of the block is reset before any segment is loaded
        rw [show userLoadSegments ops disk ctx (phdrs e) ⟨b.heapStart, file', buffer, mem⟩ =
          userLoadSegments ops disk ctx (phdrs e) ⟨0, file', buffer, mem⟩ from rfl]
        cases userLoadSegments ops disk ctx (phdrs e) ⟨0, file', buffer, mem⟩ with
        | none => rfl
        | some r =>
          obtain ⟨ret', st⟩ := r
          simp only [bind_some]
          by_cases hret' : ret' = 0
          · rw [if_neg (not_not.mpr hret'), if_neg (not_not.mpr hret')]
            cases userSetupStack ops ctx args argsCtx st.mem with
            | none => rfl
            | some r =>
              obtain ⟨argc, mem'⟩ := r
              cases argc with
              | none => exact loadFailed_outcome _ _
              | some argc => rfl
          · rw [if_pos hret', if_pos hret']
            exact loadFailed_outcome _ _
      · rw [if_pos hret, if_pos hret]
        exact loadFailed_outcome _ _

def readHeader (disk : Disk) (file : TarFile) (old : Fin 64 → UInt8) : Fin 64 → UInt8 :=
  storeBytes old (headerRead disk file).2.1

structure ElfOk (disk : Disk) (file : TarFile) (h : Fin 64 → UInt8) : Prop where
  header : 0 ≤ (headerRead disk file).1
  valid : validateElfHdr h = true
  seek : 0 ≤ (tarSeek (headerRead disk file).2.2 (toI64 (ePhoff h)) SEEK_SET).1
  table : 0 ≤ (tableRead disk file h).1

def readElf (disk : Disk) (file : TarFile) (e : Extra) (h : Fin 64 → UInt8) : Extra :=
  { e with
    elfHeader := h, nElfSegments := ePhnum h
    elfSegments := storeBytes e.elfSegments (tableRead disk file h).2.1 }

theorem tarSeek_start (file : TarFile) : (tarSeek file 0 SEEK_SET).1 = 0 := by
  simp [tarSeek, toU64, toI32]

theorem userLoadElf_eq (e : Extra) :
    let h := readHeader disk file e.elfHeader
    userLoadElf disk e file =
      if (headerRead disk file).1 < 0 then
        (1, { e with elfHeader := h }, (headerRead disk file).2.2)
      else if !validateElfHdr h then (1, { e with elfHeader := h }, (headerRead disk file).2.2)
      else if (tarSeek (headerRead disk file).2.2 (toI64 (ePhoff h)) SEEK_SET).1 < 0 then
        (1, { e with elfHeader := h, nElfSegments := ePhnum h },
          (tarSeek (headerRead disk file).2.2 (toI64 (ePhoff h)) SEEK_SET).2)
      else if (tableRead disk file h).1 < 0 then
        (1, readElf disk file e h, (tableRead disk file h).2.2)
      else (0, readElf disk file e h, (tableRead disk file h).2.2) := by
  unfold userLoadElf
  simp only [tarSeek_start, lt_irrefl, if_false]
  rfl

theorem userLoadElf_of_ok (hok : ElfOk disk file (readHeader disk file e.elfHeader)) :
    userLoadElf disk e file =
      (0, readElf disk file e (readHeader disk file e.elfHeader),
        (tableRead disk file (readHeader disk file e.elfHeader)).2.2) := by
  rw [userLoadElf_eq, if_neg (not_lt.mpr hok.header), if_neg (by simp [hok.valid]),
    if_neg (not_lt.mpr hok.seek), if_neg (not_lt.mpr hok.table)]

theorem userLoadElf_of_not_ok (hok : ¬ ElfOk disk file (readHeader disk file e.elfHeader)) :
    (userLoadElf disk e file).1 ≠ 0 := by
  rw [userLoadElf_eq]
  split_ifs with hheader hvalid hseek htable
  · exact one_ne_zero
  · exact one_ne_zero
  · exact one_ne_zero
  · exact one_ne_zero
  · refine absurd ⟨not_lt.mp hheader, ?_, not_lt.mp hseek, not_lt.mp htable⟩ hok
    simpa using hvalid

theorem tableRead_congr (hoff : ePhoff h = ePhoff h') (hnum : ePhnum h = ePhnum h') :
    tableRead disk file h = tableRead disk file h' := by
  unfold tableRead
  rw [hoff, hnum]

theorem ElfOk.congr (hok : ElfOk disk file h) (hb : ∀ i, i < usedEhdr → byteAt h i = byteAt h' i) :
    ElfOk disk file h' := by
  obtain ⟨hvalid, -, hoff, hnum⟩ := ehdr_congr hb
  refine ⟨hok.header, hvalid ▸ hok.valid, ?_, ?_⟩
  · rw [← hoff]
    exact hok.seek
  · rw [← tableRead_congr hoff hnum]
    exact hok.table

theorem phdr_congr {t t' : Fin 896 → UInt8} {idx : Nat}
    (hb : ∀ i, i < sizeofPhdr * (idx + 1) → byteAt t i = byteAt t' i) :
    phdr t idx = phdr t' idx := by
  have hle : ∀ off width, off + width ≤ sizeofPhdr →
      readLe t (sizeofPhdr * idx + off) width = readLe t' (sizeofPhdr * idx + off) width := by
    intro off width hoff
    refine readLe_congr fun i _ hi => hb i ?_
    rw [Nat.mul_succ]
    omega
  unfold phdr
  rw [Phdr.mk.injEq]
  exact ⟨hle 0 4 (by decide), hle 8 8 (by decide), hle 16 8 (by decide), hle 32 8 (by decide),
    hle 40 8 (by decide)⟩

theorem phdrs_congr (hn : e.nElfSegments = e'.nElfSegments) (hb : ∀ i, i < sizeofPhdr * e.nElfSegments →
      byteAt e.elfSegments i = byteAt e'.elfSegments i) : phdrs e = phdrs e' := by
  unfold phdrs
  rw [← hn]
  refine map_congr_left fun idx hidx => phdr_congr fun i hi => hb i (hi.trans_le ?_)
  exact Nat.mul_le_mul_left _ (mem_range.mp hidx)

theorem segmentTable_eq_iff (hn : e.nElfSegments = e'.nElfSegments) :
    segmentTable e = segmentTable e' ↔
      ∀ i, i < sizeofPhdr * e.nElfSegments → byteAt e.elfSegments i = byteAt e'.elfSegments i := by
  unfold segmentTable
  rw [← hn, map_inj_left]
  simp

section Outcomes

variable {args argsCtx : Nat} {b : Block} {l : Leftover} {buffer : Option (Nat → UInt8)}
  {mem : μ} {x : Loaded μ}

def refusedOutcome (ops : LoadOps μ) (mem : μ) : Option (Option (Loaded μ)) :=
  (ops.memCtxAlloc mem).bind fun r => failedOutcome ops r.1 r.2

theorem refusedOutcome_ne (ops : LoadOps μ) (mem : μ) (x : Loaded μ) :
    refusedOutcome ops mem ≠ some (some x) := by
  unfold refusedOutcome failedOutcome
  cases ops.memCtxAlloc mem with
  | none => simp
  | some r => cases h : ops.memCtxFree r.2 r.1 <;> simp [h]

theorem loadOutcome_of_not_ok (hok : ¬ ElfOk disk file (readHeader disk file l.elfHeader)) :
    loadOutcome ops disk args argsCtx (b.with l) file buffer mem = refusedOutcome ops mem := by
  have hret := userLoadElf_of_not_ok (e := (b.with l).toExtra) hok
  rw [loadOutcome_eq]
  unfold refusedOutcome
  congr 1
  funext r
  dsimp only
  rw [if_pos hret, ite_self]

theorem loadOutcome_of_ok (hok : ElfOk disk file (readHeader disk file l.elfHeader)) :
    loadOutcome ops disk args argsCtx (b.with l) file buffer mem =
      let h := readHeader disk file l.elfHeader
      let e := readElf disk file (b.with l).toExtra h
      (ops.memCtxAlloc mem).bind fun r =>
        if r.1 = 0 then failedOutcome ops r.1 r.2
        else imageOutcome ops disk args argsCtx r.1 (eEntry h) (segmentTable e) (phdrs e)
          ⟨0, (tableRead disk file h).2.2, buffer, r.2⟩ := by
  have helf := userLoadElf_of_ok (e := (b.with l).toExtra) hok
  rw [loadOutcome_eq]
  simp only [helf]
  rfl

theorem FullyRead.outcome_eq (hfull : FullyRead disk file) (l l' : Leftover) :
    loadOutcome ops disk args argsCtx (b.with l) file buffer mem =
      loadOutcome ops disk args argsCtx (b.with l') file buffer mem := by
  have hsame : ∀ dst dst', ∀ i, i < usedEhdr → byteAt (readHeader disk file dst) i =
      byteAt (readHeader disk file dst') i :=
    fun dst dst' _ hi => storeBytes_header_congr hfull.1 dst dst' hi
  by_cases hok : ElfOk disk file (readHeader disk file l.elfHeader)
  · have hok' : ElfOk disk file (readHeader disk file l'.elfHeader) := hok.congr (hsame _ _)
    obtain ⟨-, hentry, hoff, hnum⟩ := ehdr_congr (hsame l.elfHeader l'.elfHeader)
    obtain ⟨-, -, hoff₀, hnum₀⟩ := ehdr_congr (hsame l.elfHeader fun _ => 0)
    have htable : tableRead disk file _ = tableRead disk file _ := tableRead_congr hoff hnum
    have hlen : (tableRead disk file (readHeader disk file l.elfHeader)).2.1.length =
        sizeofPhdr * ePhnum (readHeader disk file l.elfHeader) := by
      rw [tableRead_congr hoff₀ hnum₀, hnum₀]
      exact hfull.2
    have hphnum := validateElfHdr_phnum hok.valid
    have hbyte : ∀ i, i < sizeofPhdr * ePhnum (readHeader disk file l.elfHeader) →
        byteAt (storeBytes l.elfSegments
          (tableRead disk file (readHeader disk file l.elfHeader)).2.1) i =
        byteAt (storeBytes l'.elfSegments
          (tableRead disk file (readHeader disk file l'.elfHeader)).2.1) i := by
      intro i hi
      have hi896 : i < 896 := by
        unfold sizeofPhdr at hi
        unfold N_ELF_SEGMENTS at hphnum
        omega
      rw [← htable, byteAt_storeBytes _ _ hi896, byteAt_storeBytes _ _ hi896, if_pos (by omega),
        if_pos (by omega)]
    rw [loadOutcome_of_ok hok, loadOutcome_of_ok hok']
    have hsegs : segmentTable (readElf disk file (b.with l).toExtra
        (readHeader disk file l.elfHeader)) = segmentTable (readElf disk file (b.with l').toExtra
        (readHeader disk file l'.elfHeader)) := (segmentTable_eq_iff hnum).mpr hbyte
    have hhdrs : phdrs (readElf disk file (b.with l).toExtra
        (readHeader disk file l.elfHeader)) = phdrs (readElf disk file (b.with l').toExtra
        (readHeader disk file l'.elfHeader)) := phdrs_congr hnum hbyte
    simp only [hsegs, hhdrs, hentry, htable]
  · have hok' : ¬ ElfOk disk file (readHeader disk file l'.elfHeader) :=
      fun h => hok (h.congr (hsame _ _))
    rw [loadOutcome_of_not_ok hok, loadOutcome_of_not_ok hok']

theorem imageOutcome_segments {ctx entry : Nat} {segs : List Nat} {hdrs : List Phdr} {st : LoadState μ}
    (hx : imageOutcome ops disk args argsCtx ctx entry segs hdrs st = some (some x)) :
    x.segments = segs := by
  unfold imageOutcome failedOutcome at hx
  obtain ⟨⟨ret, st'⟩, -, hx⟩ := bind_eq_some_iff.mp hx
  dsimp only at hx
  split_ifs at hx with hret
  · simp at hx
  · obtain ⟨⟨argc, mem'⟩, -, hx⟩ := bind_eq_some_iff.mp hx
    cases argc with
    | none => simp at hx
    | some argc =>
      obtain rfl := some.inj (some.inj hx)
      rfl

/-- A short header: the high byte of `e_phnum` comes from the block. -/
theorem exists_refused (hlen : (headerRead disk file).2.1.length < usedEhdr) (l : Leftover) :
    ∃ l', loadOutcome ops disk args argsCtx (b.with l') file buffer mem = refusedOutcome ops mem := by
  refine ⟨{ l with elfHeader := update l.elfHeader 57 1 }, loadOutcome_of_not_ok ?_⟩
  intro hok
  have hphnum := validateElfHdr_phnum hok.valid
  have hbyte : byteAt (readHeader disk file (update l.elfHeader 57 1)) 57 = 1 := by
    unfold readHeader
    rw [byteAt_storeBytes _ _ (by decide), if_neg (by unfold usedEhdr at hlen; omega)]
    simp [byteAt]
  unfold ePhnum readLe readLe readLe N_ELF_SEGMENTS at hphnum
  dsimp only at hphnum
  rw [hbyte] at hphnum
  omega

def Leftover.bump (l : Leftover) (j : Fin 896) : Leftover :=
  { l with elfSegments := update l.elfSegments j (l.elfSegments j + 1) }

theorem bumped_table {j : Fin 896} (hj : bytes.length ≤ j.1) (i : Nat) :
    byteAt (storeBytes (l.bump j).elfSegments bytes) i =
      if i = j.1 then (l.elfSegments j + 1).toNat
      else byteAt (storeBytes l.elfSegments bytes) i :=
  byteAt_storeBytes_update hj _ i

/-- A short table: its last byte, which is not used, comes from the block. -/
theorem exists_other_table (hhead : usedEhdr ≤ (headerRead disk file).2.1.length)
    (hshort : (tableRead disk file (fileHeader disk file)).2.1.length ≠
      sizeofPhdr * ePhnum (fileHeader disk file))
    (hx : loadOutcome ops disk args argsCtx (b.with l) file buffer mem = some (some x)) :
    ∃ l', loadOutcome ops disk args argsCtx (b.with l') file buffer mem ≠ some (some x) := by
  have hok : ElfOk disk file (readHeader disk file l.elfHeader) := by
    by_contra hok
    exact refusedOutcome_ne ops mem x ((loadOutcome_of_not_ok hok).symm.trans hx)
  have hused : ∀ i, i < usedEhdr → byteAt (readHeader disk file l.elfHeader) i =
      byteAt (fileHeader disk file) i := fun _ hi => storeBytes_header_congr hhead _ _ hi
  obtain ⟨-, -, hoff, hnum⟩ := ehdr_congr hused
  rw [← tableRead_congr hoff hnum, ← hnum] at hshort
  have hphnum := validateElfHdr_phnum hok.valid
  have hle : (tableRead disk file (readHeader disk file l.elfHeader)).2.1.length ≤
      sizeofPhdr * ePhnum (readHeader disk file l.elfHeader) := tarRead_length_le disk _ _
  -- the last byte of the table in use, which the file does not give
  obtain ⟨last, hlast⟩ : ∃ last : Fin 896,
      last.1 + 1 = sizeofPhdr * ePhnum (readHeader disk file l.elfHeader) := by
    unfold sizeofPhdr at hshort hle ⊢
    unfold N_ELF_SEGMENTS at hphnum
    exact ⟨⟨56 * ePhnum (readHeader disk file l.elfHeader) - 1, by omega⟩, by dsimp only; omega⟩
  have hshort' : (tableRead disk file (readHeader disk file l.elfHeader)).2.1.length ≤ last.1 := by
    omega
  rw [loadOutcome_of_ok hok] at hx
  obtain ⟨⟨ctx, mem'⟩, hctx, hx⟩ := bind_eq_some_iff.mp hx
  have hok' : ElfOk disk file (readHeader disk file (l.bump last).elfHeader) := hok
  refine ⟨l.bump last, fun hx' => ?_⟩
  rw [loadOutcome_of_ok hok', hctx, bind_some] at hx'
  dsimp only at hx hx'
  by_cases hzero : ctx = 0
  · rw [if_pos hzero] at hx
    unfold failedOutcome at hx
    cases hfree : ops.memCtxFree mem' ctx <;> simp [hfree] at hx
  · rw [if_neg hzero] at hx hx'
    have hsegs := (imageOutcome_segments hx).symm.trans (imageOutcome_segments hx')
    have hsame : byteAt (storeBytes l.elfSegments
        (tableRead disk file (readHeader disk file l.elfHeader)).2.1) last.1 =
        byteAt (storeBytes (l.bump last).elfSegments
          (tableRead disk file (readHeader disk file l.elfHeader)).2.1) last.1 := by
      have hn : (readElf disk file (b.with l).toExtra
          (readHeader disk file l.elfHeader)).nElfSegments = (readElf disk file
          (b.with (l.bump last)).toExtra
          (readHeader disk file (l.bump last).elfHeader)).nElfSegments := rfl
      refine (segmentTable_eq_iff hn).mp hsegs last.1 ?_
      exact hlast ▸ Nat.lt_succ_self last.1
    rw [bumped_table hshort', if_pos rfl, byteAt_storeBytes _ _ last.2, if_neg (by omega)] at hsame
    have hbump : (l.elfSegments last).toNat = ((l.elfSegments last).toNat + 1) % 256 := by
      simpa [byteAt] using hsame
    have hbyte := (l.elfSegments last).toNat_lt
    omega

end Outcomes

def idleLoadOps : LoadOps Unit where
  memCtxAlloc := fun _ => some (1, ())
  memCtxFree := fun _ _ => some ()
  memCtxPgdir := fun _ _ => 0
  memAllocPagesAt := fun _ _ _ virt _ => some (virt, ())
  kmapuseraddr := fun _ _ _ _ => some (0x40000000, ())
  kunmapaddr := fun _ _ => some ()
  kallocBuffer := fun _ => some (some fun _ => 0, ())
  memcpyv := fun _ _ _ => some ()
  argLengths := fun _ _ _ => some []

def zeroLeftover : Leftover :=
  ⟨fun _ => 0, fun _ => 0, 0, 0, 0, 0, 0, fun _ => 0⟩

def elfLeftover : Leftover :=
  { zeroLeftover with
    elfHeader := storeBytes (fun _ => 0) ([0x7f, 0x45, 0x4c, 0x46, 2, 1, 1, 0, 0, 0, 0, 0, 0, 0, 0, 0,
      2, 0, 62, 0, 0, 0, 0, 0, 0x34, 0x12] ++ replicate 30 0 ++ [1])
    elfSegments := storeBytes (fun _ => 0) ([1] ++ replicate 16 0 ++ [0x10] ++
      replicate 14 0 ++ [1] ++ replicate 7 0 ++ [1]) }

end Comus.Procs
