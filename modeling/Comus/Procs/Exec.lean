import Mathlib.Data.Set.Insert
import Comus.Memory.Contexts
import Comus.Procs.Loader

/-!
# `exec` that fails (kernel/syscall.c, kernel/user.c)

`sys_exec` saves the control block and restores it if the program cannot be loaded.
What `user_load` has done to the memory by then is undone by `user_cleanup` alone: it
gives the new context back, and it is also called when there is no new context. A
segment that is mapped for the kernel is unmapped where the copy ends, but not where
the seek in front of it fails.
-/

namespace Comus.Procs

open Word Fs Contexts Option List

variable {ctx : Ctx} {e : Extra} {f' : TarFile}

/-- The memory functions below the contexts. Those that are given a context may look at
the pool. -/
structure LowOps (ρ : Type) extends Lower ρ where
  memAllocPagesAt : Pool → ρ → Nat → Nat → Nat → Nat → Option (Nat × ρ)
  kmapuseraddr : Pool → ρ → Nat → Nat → Nat → Option (Nat × ρ)
  kunmapaddr : ρ → Nat → Option ρ
  kallocBuffer : ρ → Option (Option (Nat → UInt8) × ρ)
  memcpyv : ρ → Nat → List UInt8 → Option ρ
  argLengths : Pool → ρ → Nat → Nat → Option (List Nat)

def ctxPtr : Option Ctx → Nat
  | none => 0
  | some ctx => ctx.1 + 1

def ctxOf (p : Nat) : Option Ctx := if h : 0 < p ∧ p ≤ 256 then some ⟨p - 1, pred_lt_slots h⟩ else none

theorem ctxOf_ctxPtr (c : Option Ctx) : ctxOf (ctxPtr c) = c := by
  cases c with
  | none => rfl
  | some ctx =>
    have hlt := ctx.2
    simp [ctxOf, ctxPtr, Nat.succ_le_of_lt hlt]

theorem ctxPtr_ne_zero (ctx : Ctx) : ctxPtr (some ctx) ≠ 0 := Nat.succ_ne_zero _

def contextOps {ρ : Type} (low : LowOps ρ) : LoadOps (World ρ) where
  memCtxAlloc w := (memCtxAlloc low.toLower w).map fun (ctx, w) => (ctxPtr ctx, w)
  memCtxFree w ctx := memCtxFree low.toLower w (ctxOf ctx)
  memCtxPgdir w ctx := ((ctxOf ctx).map w.pool.pml4).getD 0
  memAllocPagesAt w ctx count virt flags :=
    (low.memAllocPagesAt w.pool w.low ctx count virt flags).map fun (a, low) =>
      (a, { w with low := low })
  kmapuseraddr w ctx virt len :=
    (low.kmapuseraddr w.pool w.low ctx virt len).map fun (a, low) => (a, { w with low := low })
  kunmapaddr w a := (low.kunmapaddr w.low a).map fun low => { w with low := low }
  kallocBuffer w := (low.kallocBuffer w.low).map fun (b, low) => (b, { w with low := low })
  memcpyv w a bytes := (low.memcpyv w.low a bytes).map fun low => { w with low := low }
  argLengths w ctx args := low.argLengths w.pool w.low ctx args

/-- What the functions below do to the kernel's virtual allocator. `maps` are the pages at
which its mappings start. The functions return, with null where they fail; only a copy
may fault. -/
structure LowLaws {ρ : Type} (low : LowOps ρ) (maps : ρ → Set Nat) : Prop where
  pgdirAlloc : ∀ r, ∃ a r', low.pgdirAlloc r = some (a, r') ∧ maps r' = maps r
  pgdirFree : ∀ r p, ∃ r', low.pgdirFree r p = some r' ∧ maps r' = maps r
  virtaddrInit : ∀ r c, ∃ r', low.virtaddrInit r c = some r' ∧ maps r' = maps r
  virtaddrCleanup : ∀ r c, ∃ r', low.virtaddrCleanup r c = some r' ∧ maps r' = maps r
  memAllocPagesAt : ∀ p r ctx count virt flags, ∃ a r',
    low.memAllocPagesAt p r ctx count virt flags = some (a, r') ∧ maps r' = maps r
  kmapuseraddr : ∀ p r ctx virt len, ∃ a r', low.kmapuseraddr p r ctx virt len = some (a, r') ∧
    (a = 0 ∧ maps r' = maps r ∨
      a ≠ 0 ∧ a / PAGE_SIZE ∉ maps r ∧ maps r' = insert (a / PAGE_SIZE) (maps r))
  kunmapaddr : ∀ r a, ∃ r', low.kunmapaddr r a = some r' ∧ maps r' = maps r \ {a / PAGE_SIZE}
  memcpyv : ∀ r a bytes r', low.memcpyv r a bytes = some r' → maps r' = maps r
  argLengths : ∀ p r ctx args, ∃ lens, low.argLengths p r ctx args = some lens

inductive ExecEnd (μ : Type) where
  | replaced (pcb : Block) (st : LoadState μ)
  | returned (code : Int) (pcb : Block) (buffer : Option (Nat → UInt8)) (mem : μ)

def sysExecLoad {μ : Type} (ops : LoadOps μ) (disk : Disk) (args : Nat) (file : Option TarFile)
    (pcb : Block) (buffer : Option (Nat → UInt8)) (mem : μ) : Option (ExecEnd μ) :=
  let save := pcb
  match file with
  | none => some (.returned 1 save buffer mem)
  | some file =>
    (userLoad ops disk args save.memctx pcb file buffer mem).bind fun (ret, pcb, st) =>
      if ret ≠ 0 then some (.returned 1 save st.buffer st.mem)
      else (ops.memCtxFree st.mem save.memctx).map fun mem => .replaced pcb { st with mem := mem }

variable {ρ : Type} {low : LowOps ρ} {maps : ρ → Set Nat} {disk : Disk} {memctx : Nat} {hdr : Phdr}

/-- The calling process is as before, the free contexts are, and the kernel has no
additional mapping. -/
def ExecClean (maps : ρ → Set Nat) (pcb : Block) (w : World ρ) : Option (ExecEnd (World ρ)) → Prop
  | none => False
  | some (.replaced _ _) => True
  | some (.returned code pcb' _ w') =>
    code = 1 ∧ pcb' = pcb ∧ w'.pool.free = w.pool.free ∧ maps w'.low ⊆ maps w.low

section Segment
variable {μ : Type} (ops : LoadOps μ) (disk : Disk)

def memPages (hdr : Phdr) : Nat := u64 (hdr.memsz + PAGE_SIZE - 1) / PAGE_SIZE
def filePages (hdr : Phdr) : Nat := u64 (hdr.filesz + PAGE_SIZE - 1) / PAGE_SIZE

structure HasData (hdr : Phdr) : Prop where
  type : hdr.type = PT_LOAD
  size : hdr.filesz ≤ hdr.memsz
  pages : 1 ≤ filePages hdr

/-- The segment has got its pages, and the kernel sees them at `mapAddr`. -/
structure Mapped (memctx : Nat) (hdr : Phdr) (st : LoadState μ) (mapAddr : Nat) (mem : μ) : Prop where
  data : HasData hdr
  alloc : ∃ virt mem', ops.memAllocPagesAt st.mem memctx (memPages hdr) hdr.vaddr
    (F_WRITEABLE + F_UNPRIVILEGED) = some (virt, mem') ∧ virt ≠ 0 ∧
      ops.kmapuseraddr mem' memctx hdr.vaddr hdr.memsz = some (mapAddr, mem)
  notNull : mapAddr ≠ 0

def copySegment (hdr : Phdr) (mapAddr : Nat) (st : LoadState μ) : Option (Int × LoadState μ) :=
  let (pos, file) := tarSeek st.file (toI64 hdr.offset) SEEK_SET
  let st := { st with file := file }
  if pos < 0 then some (1, st)
  else
    (loadData ops disk mapAddr hdr.filesz hdr.filesz 0 st).bind fun (ret, st) =>
      if ret ≠ 0 then some (ret, st)
      else
        let heapEnd := u64 (hdr.vaddr + memPages hdr * PAGE_SIZE)
        let st := if heapEnd > st.heapStart then { st with heapStart := heapEnd } else st
        (ops.kunmapaddr st.mem mapAddr).map fun mem => (0, { st with mem := mem })

variable {ops} {disk} {st : LoadState μ} {mapAddr : Nat} {mem : μ}

theorem userLoadSegment_no_data (h : ¬ HasData hdr) :
    userLoadSegment ops disk memctx hdr st =
      some (if hdr.type = PT_LOAD ∧ hdr.filesz > hdr.memsz then 1 else 0, st) := by
  unfold userLoadSegment
  by_cases htype : hdr.type = PT_LOAD
  · rw [if_neg (not_not.mpr htype)]
    by_cases hsize : hdr.filesz > hdr.memsz
    · rw [if_pos hsize, if_pos ⟨htype, hsize⟩]
    · have hpages : filePages hdr < 1 := not_le.mp fun hpages => h ⟨htype, not_lt.mp hsize, hpages⟩
      unfold filePages at hpages
      have hok : ¬ (hdr.type = PT_LOAD ∧ hdr.filesz > hdr.memsz) := fun hand => hsize hand.2
      rw [if_neg hsize]
      dsimp only
      rw [if_pos hpages, if_neg hok]
  · rw [if_pos htype, if_neg fun hand => htype hand.1]

theorem userLoadSegment_mapped (h : Mapped ops memctx hdr st mapAddr mem) :
    userLoadSegment ops disk memctx hdr st = copySegment ops disk hdr mapAddr { st with mem := mem } := by
  obtain ⟨⟨htype, hsize, hpages⟩, ⟨virt, mem', halloc, hvirt, hmap⟩, hnull⟩ := h
  unfold memPages at halloc
  unfold filePages at hpages
  unfold userLoadSegment
  rw [if_neg (not_not.mpr htype), if_neg (not_lt.mpr hsize)]
  dsimp only
  rw [if_neg (not_lt.mpr hpages), halloc, bind_some]
  dsimp only
  rw [if_neg hvirt, hmap, bind_some]
  dsimp only
  rw [if_neg hnull]
  rfl

variable (ops disk)

/-- The seek in front of the copy fails. Its result is an `int`, so that it fails where
bit 31 of the offset is set. -/
def SeekFails (memctx : Nat) (hdr : Phdr) (st : LoadState μ) : Prop :=
  (∃ mapAddr mem, Mapped ops memctx hdr st mapAddr mem) ∧
    (tarSeek st.file (toI64 hdr.offset) SEEK_SET).1 < 0

def CopyFaults (memctx : Nat) (hdr : Phdr) (st : LoadState μ) : Prop :=
  0 ≤ (tarSeek st.file (toI64 hdr.offset) SEEK_SET).1 ∧
    ∃ mapAddr mem, Mapped ops memctx hdr st mapAddr mem ∧
      loadData ops disk mapAddr hdr.filesz hdr.filesz 0
        { st with file := (tarSeek st.file (toI64 hdr.offset) SEEK_SET).2, mem := mem } = none

def Reaches (P : Phdr → LoadState μ → Prop) (memctx : Nat) : List Phdr → LoadState μ → Prop
  | [], _ => False
  | hdr :: hdrs, st =>
    P hdr st ∨ ∃ st', userLoadSegment ops disk memctx hdr st = some (0, st') ∧ Reaches P memctx hdrs st'

end Segment

section Effects
variable {st st' : LoadState (World ρ)} {mapAddr fileBytes fuel total : Nat} {ret : Int} {w : World ρ}

structure Same (maps : ρ → Set Nat) (st st' : LoadState (World ρ)) : Prop where
  pool : st'.mem.pool = st.mem.pool
  maps : maps st'.mem.low = maps st.mem.low
  buffer : st.buffer.isSome = true → st'.buffer.isSome = true

theorem Same.refl (maps : ρ → Set Nat) (st : LoadState (World ρ)) : Same maps st st := ⟨rfl, rfl, id⟩

theorem Same.trans {st'' : LoadState (World ρ)} (h : Same maps st st') (h' : Same maps st' st'') :
    Same maps st st'' :=
  ⟨h'.pool.trans h.pool, h'.maps.trans h.maps, fun hb => h'.buffer (h.buffer hb)⟩

section LowLaws

variable (laws : LowLaws low maps)
include laws

theorem loadData_effect (h : loadData (contextOps low) disk mapAddr fileBytes fuel total st = some (ret, st')) :
    st'.mem.pool = st.mem.pool ∧ (st.buffer.isSome = true → st'.buffer.isSome = true) ∧
      (ret = 0 ∧ maps st'.mem.low = maps st.mem.low ∨
        ret ≠ 0 ∧ maps st'.mem.low = maps st.mem.low \ {mapAddr / PAGE_SIZE}) := by
  induction fuel generalizing total st with
  | zero =>
    unfold loadData at h
    split_ifs at h
    cases h
    exact ⟨rfl, id, .inl ⟨rfl, rfl⟩⟩
  | succ fuel ih =>
    unfold loadData at h
    by_cases hmore : total < fileBytes
    · rw [if_pos hmore] at h
      dsimp only at h
      generalize tarRead disk st.file _ = r at h
      split_ifs at h with hread hlong
      · -- the read failed
        obtain ⟨w, hunmap, heq⟩ := map_eq_some_iff.mp h
        cases heq
        obtain ⟨low', hlow, hmaps⟩ := laws.kunmapaddr st.mem.low mapAddr
        simp only [contextOps, hlow, map_some, some.injEq] at hunmap
        subst hunmap
        exact ⟨rfl, fun _ => rfl, .inr ⟨by decide, hmaps⟩⟩
      · obtain ⟨w, hcopy, hrest⟩ := bind_eq_some_iff.mp h
        obtain ⟨low', hlow, rfl⟩ := map_eq_some_iff.mp hcopy
        have hmaps := laws.memcpyv _ _ _ _ hlow
        obtain ⟨hpool, hbuffer, hcases⟩ := ih hrest
        refine ⟨hpool, fun _ => hbuffer rfl, ?_⟩
        rwa [hmaps] at hcases
    · rw [if_neg hmore] at h
      cases h
      exact ⟨rfl, id, .inl ⟨rfl, rfl⟩⟩

theorem Mapped.effect (h : Mapped (contextOps low) memctx hdr st mapAddr w) :
    w.pool = st.mem.pool ∧ mapAddr / PAGE_SIZE ∉ maps st.mem.low ∧
      maps w.low = insert (mapAddr / PAGE_SIZE) (maps st.mem.low) := by
  obtain ⟨-, ⟨virt, w1, halloc, -, hmap⟩, hnull⟩ := h
  obtain ⟨a, r, hlow, hmaps⟩ := laws.memAllocPagesAt st.mem.pool st.mem.low memctx (memPages hdr)
    hdr.vaddr (F_WRITEABLE + F_UNPRIVILEGED)
  simp only [contextOps, hlow, map_some, some.injEq, Prod.mk.injEq] at halloc
  obtain ⟨-, rfl⟩ := halloc
  obtain ⟨a', r', hlow', hmaps'⟩ := laws.kmapuseraddr st.mem.pool r memctx hdr.vaddr hdr.memsz
  simp only [contextOps, hlow', map_some, some.injEq, Prod.mk.injEq] at hmap
  obtain ⟨rfl, rfl⟩ := hmap
  rcases hmaps' with ⟨hzero, -⟩ | ⟨-, hnew, hmaps'⟩
  · exact absurd hzero hnull
  · rw [hmaps] at hnew hmaps'
    exact ⟨rfl, hnew, hmaps'⟩

theorem segment_unmapped (h : ¬ ∃ mapAddr w, Mapped (contextOps low) memctx hdr st mapAddr w) :
    ∃ ret st', userLoadSegment (contextOps low) disk memctx hdr st = some (ret, st') ∧
      Same maps st st' := by
  by_cases hdata : HasData hdr
  · obtain ⟨a, r, hlow, hmaps⟩ := laws.memAllocPagesAt st.mem.pool st.mem.low memctx (memPages hdr)
      hdr.vaddr (F_WRITEABLE + F_UNPRIVILEGED)
    have halloc : (contextOps low).memAllocPagesAt st.mem memctx (memPages hdr) hdr.vaddr
        (F_WRITEABLE + F_UNPRIVILEGED) = some (a, { st.mem with low := r }) := by
      simp only [contextOps, hlow, map_some]
    obtain ⟨a', r', hlow', hmaps'⟩ := laws.kmapuseraddr st.mem.pool r memctx hdr.vaddr hdr.memsz
    have hmap : (contextOps low).kmapuseraddr { st.mem with low := r } memctx hdr.vaddr hdr.memsz =
        some (a', { st.mem with low := r' }) := by
      simp only [contextOps, hlow', map_some]
    obtain ⟨htype, hsize, hpages⟩ := hdata
    have hpages' := hpages
    unfold filePages at hpages'
    unfold userLoadSegment
    rw [if_neg (not_not.mpr htype), if_neg (not_lt.mpr hsize)]
    dsimp only
    rw [if_neg (not_lt.mpr hpages')]
    unfold memPages at halloc
    rw [halloc, bind_some]
    dsimp only
    by_cases ha : a = 0
    · rw [if_pos ha]
      exact ⟨_, _, rfl, rfl, hmaps, id⟩
    · rw [if_neg ha, hmap, bind_some]
      dsimp only
      by_cases ha' : a' = 0
      · rw [if_pos ha']
        rcases hmaps' with ⟨-, hmaps'⟩ | ⟨hne, -⟩
        · exact ⟨_, _, rfl, rfl, hmaps'.trans hmaps, id⟩
        · exact absurd ha' hne
      · exact absurd ⟨a', _, ⟨htype, hsize, hpages⟩, ⟨a, _, halloc, ha, hmap⟩, ha'⟩ h
  · -- nothing is loaded
    rw [userLoadSegment_no_data hdata]
    exact ⟨_, _, rfl, Same.refl maps st⟩

theorem segment_mapped (h : Mapped (contextOps low) memctx hdr st mapAddr w)
    (hseek : ¬ SeekFails (contextOps low) memctx hdr st)
    (hcopy : ¬ CopyFaults (contextOps low) disk memctx hdr st) :
    ∃ ret st', userLoadSegment (contextOps low) disk memctx hdr st = some (ret, st') ∧
      Same maps st st' := by
  obtain ⟨hpool, hnew, hmaps⟩ := h.effect laws
  have hpos : 0 ≤ (tarSeek st.file (toI64 hdr.offset) SEEK_SET).1 :=
    not_lt.mp fun hneg => hseek ⟨⟨mapAddr, w, h⟩, hneg⟩
  have hback : maps w.low \ {mapAddr / PAGE_SIZE} = maps st.mem.low := by
    rw [hmaps]
    exact Set.insert_sdiff_self_of_notMem hnew
  rw [userLoadSegment_mapped h]
  unfold copySegment
  dsimp only
  rw [if_neg (not_lt.mpr hpos)]
  cases hload : loadData (contextOps low) disk mapAddr hdr.filesz hdr.filesz 0
      { st with file := (tarSeek st.file (toI64 hdr.offset) SEEK_SET).2, mem := w } with
  | none => exact absurd ⟨hpos, mapAddr, w, h, hload⟩ hcopy
  | some r =>
    obtain ⟨ret, st1⟩ := r
    obtain ⟨hpool1, hbuffer1, hcases⟩ := loadData_effect laws hload
    rw [bind_some]
    dsimp only
    rcases hcases with ⟨rfl, hmaps1⟩ | ⟨hret, hmaps1⟩
    · -- the copy is complete
      rw [if_neg (by simp)]
      obtain ⟨r', hlow, hunmap⟩ := laws.kunmapaddr st1.mem.low mapAddr
      have hunmapped : ∀ st2 : LoadState (World ρ), st2.mem = st1.mem →
          (contextOps low).kunmapaddr st2.mem mapAddr = some { st1.mem with low := r' } := by
        intro st2 hmem
        simp only [contextOps, hmem, hlow, map_some]
      split_ifs with hheap
      · rw [hunmapped _ rfl]
        exact ⟨_, _, rfl, hpool1.trans hpool, hunmap.trans (hmaps1 ▸ hback), hbuffer1⟩
      · rw [hunmapped _ rfl]
        exact ⟨_, _, rfl, hpool1.trans hpool, hunmap.trans (hmaps1 ▸ hback), hbuffer1⟩
    · rw [if_pos hret]
      exact ⟨ret, st1, rfl, hpool1.trans hpool, hmaps1.trans hback, hbuffer1⟩

theorem segment_seek_fails (disk : Disk)
    (h : SeekFails (contextOps low) memctx hdr st) :
    ∃ st', userLoadSegment (contextOps low) disk memctx hdr st = some (1, st') ∧
      st'.mem.pool = st.mem.pool ∧ ¬ maps st'.mem.low ⊆ maps st.mem.low := by
  obtain ⟨⟨mapAddr, w, hmapped⟩, hneg⟩ := h
  obtain ⟨hpool, hnew, hmaps⟩ := hmapped.effect laws
  rw [userLoadSegment_mapped hmapped]
  unfold copySegment
  dsimp only
  rw [if_pos hneg]
  refine ⟨_, rfl, hpool, fun hsub => hnew (hsub ?_)⟩
  rw [hmaps]
  exact Set.mem_insert _ _

end LowLaws

theorem segment_copy_faults (h : CopyFaults (contextOps low) disk memctx hdr st) :
    userLoadSegment (contextOps low) disk memctx hdr st = none := by
  obtain ⟨hpos, mapAddr, w, hmapped, hload⟩ := h
  rw [userLoadSegment_mapped hmapped]
  unfold copySegment
  dsimp only
  rw [if_neg (not_lt.mpr hpos), hload]
  rfl

def SegmentFault (low : LowOps ρ) (disk : Disk) (memctx : Nat) (hdr : Phdr)
    (st : LoadState (World ρ)) : Prop :=
  SeekFails (contextOps low) memctx hdr st ∨ CopyFaults (contextOps low) disk memctx hdr st

/-- The load leaves everything as it was, or it gets to a segment where it goes wrong. -/
inductive LoadEffect (maps : ρ → Set Nat) (st : LoadState (World ρ))
    (r : Option (Int × LoadState (World ρ))) (fault : Prop) : Prop where
  | same (ret : Int) (st' : LoadState (World ρ)) (eq : r = some (ret, st')) (same : Same maps st st')
      (no : ¬ fault)
  | leak (ret : Int) (st' : LoadState (World ρ)) (eq : r = some (ret, st')) (fails : ret ≠ 0)
      (pool : st'.mem.pool = st.mem.pool) (more : ¬ maps st'.mem.low ⊆ maps st.mem.low) (yes : fault)
  | stop (eq : r = none) (yes : fault)

section LowLaws

variable (laws : LowLaws low maps)
include laws

theorem loadEach_effect (disk : Disk) (memctx : Nat) (hdrs : List Phdr)
    (st : LoadState (World ρ)) :
    LoadEffect maps st (loadEach (contextOps low) disk memctx hdrs st)
      (Reaches (contextOps low) disk (SegmentFault low disk memctx) memctx hdrs st) := by
  induction hdrs generalizing st with
  | nil => exact .same 0 st rfl (Same.refl maps st) id
  | cons hdr hdrs ih =>
    by_cases hseek : SeekFails (contextOps low) memctx hdr st
    · obtain ⟨st', hseg, hpool, hmore⟩ := segment_seek_fails laws disk hseek
      refine .leak 1 st' ?_ one_ne_zero hpool hmore (.inl (.inl hseek))
      unfold loadEach
      rw [hseg]
      rfl
    · by_cases hcopy : CopyFaults (contextOps low) disk memctx hdr st
      · refine .stop ?_ (.inl (.inr hcopy))
        unfold loadEach
        rw [segment_copy_faults hcopy]
        rfl
      · obtain ⟨ret, st1, hseg, hsame⟩ : ∃ ret st', userLoadSegment (contextOps low) disk memctx hdr st =
            some (ret, st') ∧ Same maps st st' := by
          by_cases hmapped : ∃ mapAddr w, Mapped (contextOps low) memctx hdr st mapAddr w
          · obtain ⟨mapAddr, w, hmapped⟩ := hmapped
            exact segment_mapped laws hmapped hseek hcopy
          · exact segment_unmapped laws hmapped
        unfold loadEach Reaches
        rw [hseg, bind_some]
        dsimp only
        by_cases hret : ret = 0
        · subst hret
          rw [if_neg (by simp)]
          have hiff : (SegmentFault low disk memctx hdr st ∨ ∃ st', some ((0 : Int), st1) = some (0, st') ∧
              Reaches (contextOps low) disk (SegmentFault low disk memctx) memctx hdrs st') ↔
              Reaches (contextOps low) disk (SegmentFault low disk memctx) memctx hdrs st1 := by
            constructor
            · rintro ((h | h) | ⟨st', heq, h⟩)
              · exact absurd h hseek
              · exact absurd h hcopy
              · cases heq
                exact h
            · exact fun h => .inr ⟨st1, rfl, h⟩
          rw [hiff]
          cases ih st1 with
          | same ret st' eq same no => exact .same ret st' eq (hsame.trans same) no
          | leak ret st' eq fails pool more yes =>
            exact .leak ret st' eq fails (pool.trans hsame.pool) (hsame.maps ▸ more) yes
          | stop eq yes => exact .stop eq yes
        · rw [if_pos hret]
          refine .same ret st1 rfl hsame ?_
          rintro ((h | h) | ⟨st', heq, -⟩)
          · exact hseek h
          · exact hcopy h
          · cases heq
            exact hret rfl

theorem userLoadSegments_effect (disk : Disk) (memctx : Nat)
    (hdrs : List Phdr) (st : LoadState (World ρ)) (hbuffer : st.buffer.isSome = true) :
    LoadEffect maps st (userLoadSegments (contextOps low) disk memctx hdrs st)
      (Reaches (contextOps low) disk (SegmentFault low disk memctx) memctx hdrs
        { st with heapStart := 0 }) := by
  obtain ⟨buf, hbuf⟩ := isSome_iff_exists.mp hbuffer
  have heq : userLoadSegments (contextOps low) disk memctx hdrs st =
      (loadEach (contextOps low) disk memctx hdrs { st with heapStart := 0 }).map fun r =>
        if r.1 ≠ 0 then (r.1, r.2) else if r.2.heapStart = 0 then (1, r.2) else (0, r.2) := by
    unfold userLoadSegments
    simp only [hbuf, bind_some]
    rfl
  rw [heq]
  cases loadEach_effect laws disk memctx hdrs { st with heapStart := 0 } with
  | same ret st' eq same no =>
    rw [eq, map_some]
    dsimp only
    split_ifs
    · exact .same _ _ rfl ⟨same.pool, same.maps, same.buffer⟩ no
    · exact .same _ _ rfl ⟨same.pool, same.maps, same.buffer⟩ no
    · exact .same _ _ rfl ⟨same.pool, same.maps, same.buffer⟩ no
  | leak ret st' eq fails pool more yes =>
    rw [eq, map_some]
    dsimp only
    rw [if_pos fails]
    exact .leak ret st' rfl fails pool more yes
  | stop eq yes =>
    rw [eq]
    exact .stop rfl yes

theorem userSetupStack_effect (memctx args argsCtx : Nat) (w : World ρ) :
    ∃ argc low', userSetupStack (contextOps low) memctx args argsCtx w = some (argc, ⟨w.pool, low'⟩) ∧
      maps low' = maps w.low := by
  obtain ⟨lens, hlens⟩ := laws.argLengths w.pool w.low argsCtx args
  obtain ⟨a, low', hlow, hmaps⟩ := laws.memAllocPagesAt w.pool w.low memctx
    (USER_STACK_LEN / PAGE_SIZE) (USER_STACK_TOP - USER_STACK_LEN) (F_WRITEABLE + F_UNPRIVILEGED)
  unfold userSetupStack
  simp only [contextOps, hlens, hlow, bind_some, map_some]
  split_ifs
  · exact ⟨none, low', rfl, hmaps⟩
  · exact ⟨_, low', rfl, hmaps⟩

theorem memCtxAlloc_effect (w : World ρ) :
    ∃ r w', memCtxAlloc low.toLower w = some (r, w') ∧ maps w'.low = maps w.low := by
  unfold memCtxAlloc
  cases w.pool.userMemCtxNext with
  | none => exact ⟨none, w, rfl, rfl⟩
  | some ctx =>
    obtain ⟨a, r, hlow, hmaps⟩ := laws.pgdirAlloc w.low
    obtain ⟨r', hlow', hmaps'⟩ := laws.virtaddrInit r ctx
    dsimp only
    rw [hlow, bind_some]
    dsimp only
    split_ifs
    · exact ⟨_, _, rfl, hmaps⟩
    · rw [hlow']
      exact ⟨_, _, rfl, hmaps'.trans hmaps⟩

theorem memCtxFree_effect (w : World ρ) (hpml4 : w.pool.pml4 ctx ≠ 0) :
    ∃ low', memCtxFree low.toLower w (some ctx) = some ⟨w.pool.put ctx, low'⟩ ∧
      maps low' = maps w.low := by
  obtain ⟨r, hlow, hmaps⟩ := laws.pgdirFree w.low (w.pool.pml4 ctx)
  obtain ⟨r', hlow', hmaps'⟩ := laws.virtaddrCleanup r ctx
  unfold memCtxFree
  dsimp only
  rw [if_neg hpml4, hlow, bind_some, hlow']
  exact ⟨r', rfl, hmaps'.trans hmaps⟩

theorem loadFailed_effect (b : Block) (st : LoadState (World ρ)) (hb : b.memctx = ctxPtr (some ctx)) (hpml4 : st.mem.pool.pml4 ctx ≠ 0) :
    ∃ low', loadFailed (contextOps low) b st =
        some (1, { b with memctx := 0 }, { st with mem := ⟨st.mem.pool.put ctx, low'⟩ }) ∧
      maps low' = maps st.mem.low := by
  obtain ⟨low', hfree, hmaps⟩ := memCtxFree_effect laws st.mem hpml4
  refine ⟨low', ?_, hmaps⟩
  unfold loadFailed
  simp only [contextOps, hb, ctxOf_ctxPtr, hfree, map_some]

end LowLaws

end Effects

section Calls
variable {args : Nat} {f : TarFile} {pcb b : Block} {buffer : Nat → UInt8} {w w1 : World ρ} {ctx : Ctx}
  {st : LoadState (World ρ)}

theorem sysExecLoad_no_context (halloc : memCtxAlloc low.toLower w = some (none, w1)) :
    sysExecLoad (contextOps low) disk args (some f) pcb (some buffer) w = none := by
  have hload : userLoad (contextOps low) disk args pcb.memctx pcb f (some buffer) w = none := by
    unfold userLoad
    have hops : (contextOps low).memCtxAlloc w = some (0, w1) := by
      simp only [contextOps, halloc, map_some, ctxPtr]
    rw [hops, bind_some]
    dsimp only
    rw [if_pos rfl]
    rfl
  unfold sysExecLoad
  dsimp only
  rw [hload]
  rfl

theorem sysExecLoad_failed (laws : LowLaws low maps) (hb : b.memctx = ctxPtr (some ctx))
    (hpool : st.mem.pool = w1.pool) (hpml4 : w1.pool.pml4 ctx ≠ 0)
    (hput : (w1.pool.put ctx).free = w.pool.free)
    (hload : userLoad (contextOps low) disk args pcb.memctx pcb f (some buffer) w =
      loadFailed (contextOps low) b st) :
    ExecClean maps pcb w (sysExecLoad (contextOps low) disk args (some f) pcb (some buffer) w) ↔
      maps st.mem.low ⊆ maps w.low := by
  obtain ⟨low', hfail, hmaps⟩ := loadFailed_effect laws b st hb (hpool ▸ hpml4)
  have hend : sysExecLoad (contextOps low) disk args (some f) pcb (some buffer) w =
      some (.returned 1 pcb st.buffer ⟨st.mem.pool.put ctx, low'⟩) := by
    unfold sysExecLoad
    dsimp only
    rw [hload, hfail, bind_some]
    dsimp only
    rw [if_pos one_ne_zero]
  rw [hend]
  unfold ExecClean
  dsimp only
  rw [hmaps, hpool]
  exact ⟨fun h => h.2.2.2, fun h => ⟨rfl, rfl, hput, h⟩⟩

theorem sysExecLoad_loaded (laws : LowLaws low maps)
    (hctx : ∃ ctx, ctxOf pcb.memctx = some ctx ∧ st.mem.pool.pml4 ctx ≠ 0)
    (hload : userLoad (contextOps low) disk args pcb.memctx pcb f (some buffer) w = some (0, b, st)) :
    ExecClean maps pcb w (sysExecLoad (contextOps low) disk args (some f) pcb (some buffer) w) := by
  obtain ⟨old, hold, hpml4⟩ := hctx
  obtain ⟨low', hfree, -⟩ := memCtxFree_effect laws st.mem hpml4
  have hfree' : (contextOps low).memCtxFree st.mem pcb.memctx = some ⟨st.mem.pool.put old, low'⟩ := by
    simp only [contextOps, hold, hfree]
  have hend : sysExecLoad (contextOps low) disk args (some f) pcb (some buffer) w =
      some (.replaced b { st with mem := ⟨st.mem.pool.put old, low'⟩ }) := by
    unfold sysExecLoad
    dsimp only
    rw [hload, bind_some]
    dsimp only
    rw [if_neg (by simp), hfree']
    rfl
  rw [hend]
  trivial

def segmentsBlock (pcb : Block) (ctx : Ctx) (e : Extra) (heapStart : Nat) : Block :=
  { pcb with memctx := ctxPtr (some ctx), toExtra := e, heapStart := heapStart, heapLen := 0 }

theorem userLoad_elf_ok (args : Nat) (buffer : Nat → UInt8) (halloc : memCtxAlloc low.toLower w = some (some ctx, w1))
    (helf : userLoadElf disk pcb.toExtra f = (0, e, f')) :
    userLoad (contextOps low) disk args pcb.memctx pcb f (some buffer) w =
      (userLoadSegments (contextOps low) disk (ctxPtr (some ctx)) (phdrs e)
        ⟨pcb.heapStart, f', some buffer, w1⟩).bind fun r =>
          if r.1 ≠ 0 then loadFailed (contextOps low) (segmentsBlock pcb ctx e r.2.heapStart) r.2
          else
            (userSetupStack (contextOps low) (ctxPtr (some ctx)) args pcb.memctx r.2.mem).bind
              fun q => match q.1 with
              | none => loadFailed (contextOps low) (segmentsBlock pcb ctx e r.2.heapStart)
                  { r.2 with mem := q.2 }
              | some argc => some (0, { segmentsBlock pcb ctx e r.2.heapStart with
                  rax := 0, rdi := argc, rsi := 0
                  regs := startRegs ((contextOps low).memCtxPgdir q.2 (ctxPtr (some ctx)))
                    (eEntry e.elfHeader) }, { r.2 with mem := q.2 }) := by
  have hops : (contextOps low).memCtxAlloc w = some (ctxPtr (some ctx), w1) := by
    simp only [contextOps, halloc, map_some]
  unfold userLoad
  rw [hops, bind_some]
  dsimp only
  rw [if_neg (ctxPtr_ne_zero ctx), helf]
  dsimp only
  rw [if_neg (by simp)]
  rfl

theorem userLoad_elf_bad {ret : Int} (halloc : memCtxAlloc low.toLower w = some (some ctx, w1))
    (helf : userLoadElf disk pcb.toExtra f = (ret, e, f')) (hret : ret ≠ 0) :
    userLoad (contextOps low) disk args pcb.memctx pcb f (some buffer) w =
      loadFailed (contextOps low) { pcb with memctx := ctxPtr (some ctx), toExtra := e }
        ⟨pcb.heapStart, f', some buffer, w1⟩ := by
  have hops : (contextOps low).memCtxAlloc w = some (ctxPtr (some ctx), w1) := by
    simp only [contextOps, halloc, map_some]
  unfold userLoad
  rw [hops, bind_some]
  dsimp only
  rw [if_neg (ctxPtr_ne_zero ctx), helf]
  dsimp only
  rw [if_pos hret]

theorem sysExecLoad_elf_ok (laws : LowLaws low maps) (halloc : memCtxAlloc low.toLower w = some (some ctx, w1)) (hmaps : maps w1.low = maps w.low)
    (hpml4 : w1.pool.pml4 ctx ≠ 0) (hput : (w1.pool.put ctx).free = w.pool.free)
    (hctx : ∃ old, ctxOf pcb.memctx = some old ∧ w1.pool.pml4 old ≠ 0)
    (helf : userLoadElf disk pcb.toExtra f = (0, e, f')) :
    ExecClean maps pcb w (sysExecLoad (contextOps low) disk args (some f) pcb (some buffer) w) ↔
      ¬ Reaches (contextOps low) disk (SegmentFault low disk (ctxPtr (some ctx)))
        (ctxPtr (some ctx)) (phdrs e) ⟨0, f', some buffer, w1⟩ := by
  have hload := userLoad_elf_ok args buffer halloc helf
  cases userLoadSegments_effect laws disk (ctxPtr (some ctx)) (phdrs e)
      ⟨pcb.heapStart, f', some buffer, w1⟩ rfl with
  | same ret st eq same no =>
    refine iff_of_true ?_ no
    rw [eq, bind_some] at hload
    dsimp only at hload
    by_cases hret : ret = 0
    · rw [if_neg (not_not.mpr hret)] at hload
      obtain ⟨argc, low', hstack, hmaps'⟩ := userSetupStack_effect laws (ctxPtr (some ctx))
        args pcb.memctx st.mem
      rw [hstack, bind_some] at hload
      cases argc with
      | none =>
        dsimp only at hload
        refine (sysExecLoad_failed laws rfl ?_ hpml4 hput hload).mpr ?_
        · exact same.pool
        · exact (hmaps'.trans (same.maps.trans hmaps)).subset
      | some argc =>
        refine sysExecLoad_loaded laws ?_ hload
        obtain ⟨old, hold, hne⟩ := hctx
        exact ⟨old, hold, by rw [same.pool]; exact hne⟩
    · rw [if_pos hret] at hload
      refine (sysExecLoad_failed laws rfl same.pool hpml4 hput hload).mpr ?_
      exact (same.maps.trans hmaps).subset
  | leak ret st eq fails pool more yes =>
    refine iff_of_false (fun hclean => more ?_) (not_not.mpr yes)
    rw [eq, bind_some] at hload
    dsimp only at hload
    rw [if_pos fails] at hload
    have hsub := (sysExecLoad_failed laws rfl pool hpml4 hput hload).mp hclean
    rwa [← hmaps] at hsub
  | stop eq yes =>
    refine iff_of_false (fun hclean => ?_) (not_not.mpr yes)
    rw [eq] at hload
    unfold sysExecLoad at hclean
    dsimp only at hclean
    rw [hload] at hclean
    exact hclean

end Calls

def listLow : LowOps (List Nat) where
  pgdirAlloc r := some (0x2000, r)
  pgdirFree r _ := some r
  virtaddrInit r _ := some r
  virtaddrCleanup r _ := some r
  memAllocPagesAt _ r _ _ virt _ := some (virt, r)
  kmapuseraddr _ r _ virt _ :=
    some ((r.sum + 1) * PAGE_SIZE + virt % PAGE_SIZE, (r.sum + 1) :: r)
  kunmapaddr r a := some (r.filter fun p => p ≠ a / PAGE_SIZE)
  kallocBuffer r := some (some fun _ => 0, r)
  memcpyv r _ _ := some r
  argLengths _ _ _ _ := some []

def listMaps (r : List Nat) : Set Nat := { p | p ∈ r }

theorem listLow_laws : LowLaws listLow listMaps where
  pgdirAlloc r := ⟨_, r, rfl, rfl⟩
  pgdirFree r _ := ⟨r, rfl, rfl⟩
  virtaddrInit r _ := ⟨r, rfl, rfl⟩
  virtaddrCleanup r _ := ⟨r, rfl, rfl⟩
  memAllocPagesAt _ r _ _ virt _ := ⟨virt, r, rfl, rfl⟩
  kmapuseraddr p r ctx virt len := by
    refine ⟨_, _, rfl, .inr ?_⟩
    have hpage : ((r.sum + 1) * PAGE_SIZE + virt % PAGE_SIZE) / PAGE_SIZE = r.sum + 1 := by
      unfold PAGE_SIZE
      omega
    rw [hpage]
    refine ⟨?_, fun hmem => ?_, ?_⟩
    · unfold PAGE_SIZE
      omega
    · have hle := le_sum_of_mem hmem
      omega
    · ext q
      simp [listMaps]
  kunmapaddr r a := by
    refine ⟨_, rfl, ?_⟩
    ext q
    simp [listMaps]
  memcpyv r a bytes r' h := by
    cases h
    rfl
  argLengths p r ctx args := ⟨[], rfl⟩

def onePool (free : Option Ctx) : Pool := ⟨free, fun _ => none, fun _ => none, fun _ => 0x1000⟩

def execBlock : Block := { zeroBlock with memctx := 1 }

def farProgram : List UInt8 :=
  replicate 512 0 ++ [0x7f, 0x45, 0x4c, 0x46, 2, 1, 1] ++ replicate 9 0 ++ [2, 0, 62, 0] ++
    replicate 12 0 ++ [64] ++ replicate 23 0 ++ [1] ++ replicate 7 0 ++
    [1] ++ replicate 10 0 ++ [0x80] ++ replicate 7 0 ++ [0x80] ++ replicate 12 0 ++
    [1] ++ replicate 7 0 ++ [1] ++ replicate 15 0

end Comus.Procs
