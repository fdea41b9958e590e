import Comus.Procs.Blocks
import Comus.Procs.Placement

/-!
# What a forked process inherits (kernel/user.c, kernel/syscall.c)

Control blocks are recycled: neither `pcb_free` nor `pcb_alloc` clears one, so
`user_clone` starts from whatever the last process in the slot left there. Here
the blocks are whole. The fields that the process code reads stay in `State`,
the others are kept beside it, and `fork` on whole blocks projects to `sysFork`.
-/

namespace Comus.Procs

open Option Function

/-- The registers of `struct cpu_regs` besides those in `Pcb`. -/
inductive Reg where
  | cr3 | gs | fs | es | ds
  | r15 | r14 | r13 | r12 | r11 | r10 | r9 | r8 | rbp | rdx | rcx | rbx
  | rip | cs | rflags | rsp | ss
  deriving Repr, DecidableEq

def sizeofEhdr : Nat := 64
def sizeofPhdr : Nat := 56

/-- The fields of `struct pcb` that are not in `Pcb`. An open file is the address of its
object, zero for null; the ELF data is the bytes of the structs. -/
structure Extra where
  regs : Reg → Nat
  openFiles : Fin 64 → Nat
  elfHeader : Fin 64 → UInt8
  elfSegments : Fin 896 → UInt8
  nElfSegments : Nat

structure Block extends Pcb, Extra

structure Kernel (μ : Type) extends State μ where
  extra : Slot → Extra

variable {μ φ : Type} (ops : MemOps μ φ)

def Kernel.block (k : Kernel μ) (i : Slot) : Block := { k.ptable i, k.extra i with }

def memcpy {n : Nat} (dst src : Fin n → UInt8) (len : Nat) : Fin n → UInt8 :=
  fun i => if i.1 < len then src i else dst i

/-- What `user_clone` copies of the fields in `Extra`. Both copies have the size of the
header. -/
def Extra.cloned (child parent : Extra) : Extra :=
  { child with
    regs := parent.regs
    elfHeader := memcpy child.elfHeader parent.elfHeader sizeofEhdr
    elfSegments := memcpy child.elfSegments parent.elfSegments sizeofEhdr
    nElfSegments := parent.nElfSegments }

/-- `user_clone` on whole blocks. Only the registers are copied before the context. -/
def Kernel.userClone (k : Kernel μ) (pcb : Slot) : Option (Option Slot × Kernel μ) :=
  match pcbAlloc k.toState with
  | none => some (none, k)
  | some (child, _) =>
    (Procs.userClone ops k.toState pcb).map fun (result, s) =>
      (result, { s with
        extra := update k.extra child
          (if result.isNone then { k.extra child with regs := (k.extra pcb).regs }
           else (k.extra child).cloned (k.extra pcb)) })

def Kernel.sysFork (k : Kernel μ) (pcb : Slot) : Option (Int × Kernel μ) :=
  (k.userClone ops pcb).bind fun
    | (none, k) => some (-1, k)
    | (some child, k) =>
      let s := k.toState.modify child fun p => { p with rax := 0 }
      let s := s.modify pcb fun p => { p with rax := (s.ptable child).pid }
      (schedule s child).map fun s => (0, { s with extra := k.extra })

variable {ops} {k k' : Kernel μ} {s s' t : State μ} {pcb child : Slot}

/-- The fork on whole blocks is the fork of the process model. -/
theorem Kernel.sysFork_toState (k : Kernel μ) (pcb : Slot) :
    (k.sysFork ops pcb).map (fun r => Handled.ret r.1 r.2.toState) =
      Procs.sysFork ops k.toState pcb := by
  unfold Kernel.sysFork Procs.sysFork Kernel.userClone
  cases halloc : pcbAlloc k.toState with
  | none => simp [Procs.userClone, halloc]
  | some a =>
    obtain ⟨child, t⟩ := a
    cases hclone : Procs.userClone ops k.toState pcb with
    | none => simp
    | some r =>
      obtain ⟨result, u⟩ := r
      cases result with
      | none => simp
      | some c => simp [Option.map_map, comp_def]

def Pcb.forked (parent : Pcb) (pcb : Slot) (ctx : Nat) (p : Pcb) : Pcb :=
  { p with
    memctx := ctx, rax := 0, rdi := parent.rdi, rsi := parent.rsi, parent := some pcb
    state := .ready, priority := parent.priority, ticks := 0
    heapStart := parent.heapStart, heapLen := parent.heapLen }

def allocated (s : State μ) (child : Slot) : State μ :=
  { s with
    ptable := update s.ptable child
      { s.ptable child with next := none, pid := s.nextPid, state := .new }
    queues := update s.queues .freelist
      { s.queues .freelist with
        head := s.next child
        tail := if (s.next child).isNone then none else (s.queues .freelist).tail }
    nextPid := (s.nextPid + 1) % 2^16 }

def forkedState (s : State μ) (pcb child : Slot) (ctx : Nat) (mem : μ) : State μ :=
  ({ allocated s child with mem := mem }.modify child ((s.ptable pcb).forked pcb ctx)).modify pcb
    fun p => { p with rax := s.nextPid }

theorem pcbAlloc_head (hfree : (s.queues .freelist).head = some child) :
    pcbAlloc s = some (child, allocated s child) := by
  unfold pcbAlloc pcbQueuePop
  rw [hfree]
  by_cases hnext : (s.next child).isNone
  · simp [allocated, State.setTail, State.setHead, State.modifyQueue, State.setNext,
      State.modify, hnext]
  · simp [allocated, State.setHead, State.modifyQueue, State.setNext, State.modify, hnext]

theorem Kernel.sysFork_eq_zero_iff (hfree : (k.queues .freelist).head = some child) (hpcb : pcb ≠ child) :
    k.sysFork ops pcb = some (0, k') ↔
      ∃ ctx mem t, ops.memCtxClone k.mem (k.ptable pcb).memctx = some (ctx, mem) ∧ ctx ≠ 0 ∧
        schedule (forkedState k.toState pcb child ctx mem) child = some t ∧
        k' = { t with
          extra := update k.extra child ((k.extra child).cloned (k.extra pcb)) } := by
  unfold Kernel.sysFork Kernel.userClone Procs.userClone
  rw [pcbAlloc_head hfree]
  have hmem : (allocated k.toState child).mem = k.mem := rfl
  have hpar : (allocated k.toState child).ptable pcb = k.ptable pcb :=
    update_of_ne hpcb _ _
  cases hclone : ops.memCtxClone k.mem (k.ptable pcb).memctx with
  | none => simp [hmem, hpar, hclone]
  | some r =>
    obtain ⟨ctx, mem⟩ := r
    by_cases hctx : ctx = 0
    · simp [hmem, hpar, hclone, hctx]
    · have hstate : ((({ allocated k.toState child with mem := mem }.modify child fun p =>
          { p with memctx := ctx, rax := (k.ptable pcb).rax, rdi := (k.ptable pcb).rdi,
                   rsi := (k.ptable pcb).rsi }).modify child fun p =>
          { p with parent := some pcb, state := .ready, priority := (k.ptable pcb).priority
                   ticks := 0, heapStart := (k.ptable pcb).heapStart
                   heapLen := (k.ptable pcb).heapLen }).modify child fun p =>
          { p with rax := 0 }) = { allocated k.toState child with mem := mem }.modify child
            ((k.ptable pcb).forked pcb ctx) := by
        rw [modify_modify, modify_modify]
        rfl
      have hpid : ((allocated k.toState child).ptable child).pid = k.nextPid := by
        simp [allocated]
      simp only [hmem, hpar, hclone, hstate, modify_ptable_self, map_some,
        bind_some, if_neg hctx, hpid, isNone_some, Bool.false_eq_true,
        if_false, map_eq_some_iff, some.injEq, Prod.mk.injEq, true_and]
      constructor
      · rintro ⟨t, ht, rfl⟩
        exact ⟨ctx, mem, t, ⟨rfl, rfl⟩, hctx, ht, rfl⟩
      · rintro ⟨_, _, t, ⟨rfl, rfl⟩, -, ht, rfl⟩
        exact ⟨t, ht, rfl⟩

def Kernel.fill (k : Kernel μ) (i : Slot) (x : Block) : Kernel μ :=
  { k with
    ptable := update k.ptable i { x.toPcb with next := k.next i }
    extra := update k.extra i x.toExtra }

theorem pcbQueueInsert_same {q : QueueId} {i : Slot} (hnext : s.next = t.next)
    (hqueues : s.queues = t.queues) (horder : (s.queues q).order = .prio)
    (hkey : ∀ j, (s.ptable j).priority = (t.ptable j).priority)
    (h : pcbQueueInsert s q i = some (.success, s')) :
    ∃ t', pcbQueueInsert t q i = some (.success, t') := by
  have hprev : findPrev t q i = findPrev s q i := by
    unfold findPrev findPrevPriority findPrevBy
    rw [← hqueues, horder, ← hnext]
    simp only [hkey]
  unfold pcbQueueInsert at h ⊢
  rw [hprev, ← hqueues, ← hnext]
  split_ifs at h ⊢
  · simp at h
  · simp
  · cases hp : findPrev s q i with
    | none => simp [hp] at h
    | some prev =>
      cases prev with
      | none => simp
      | some p =>
        dsimp only
        split_ifs <;> simp

theorem forkedState_ptable (hpcb : pcb ≠ child) (ctx : Nat) (mem : μ) (j : Slot) :
    (forkedState s pcb child ctx mem).ptable j =
      if j = child then
        (s.ptable pcb).forked pcb ctx
          { s.ptable child with next := none, pid := s.nextPid, state := .new }
      else if j = pcb then { s.ptable pcb with rax := s.nextPid }
      else s.ptable j := by
  unfold forkedState
  rw [modify_ptable, modify_ptable, modify_ptable]
  by_cases hj : j = child
  · subst hj
    simp [allocated, hpcb.symm]
  · by_cases hj' : j = pcb <;> simp [allocated, hj, hj', hpcb]

theorem fill_ptable (x : Block) (j : Slot) :
    (k.fill child x).ptable j =
      if j = child then { x.toPcb with next := k.next child } else k.ptable j := by
  unfold Kernel.fill
  by_cases hj : j = child
  · subst hj
    simp
  · simp [hj]

theorem fill_next (x : Block) : (k.fill child x).next = k.next := by
  funext j
  unfold State.next
  rw [fill_ptable]
  split_ifs with hj
  · rw [hj]
    rfl
  · rfl

theorem forkedState_fill_ptable (hpcb : pcb ≠ child) (x : Block) (ctx : Nat) (mem : μ) (j : Slot) :
    ((forkedState (k.fill child x).toState pcb child ctx mem).modify child Pcb.woken).ptable j =
      if j = child then
        Pcb.woken ((k.ptable pcb).forked pcb ctx
          { x.toPcb with next := none, pid := k.nextPid, state := .new })
      else if j = pcb then { k.ptable pcb with rax := k.nextPid }
      else k.ptable j := by
  rw [modify_ptable, forkedState_ptable hpcb, forkedState_ptable hpcb, if_pos rfl, fill_ptable,
    fill_ptable, if_neg hpcb, if_pos rfl]
  by_cases hj : j = child
  · rw [if_pos hj, if_pos hj]
    rfl
  · rw [if_neg hj, if_neg hj, if_neg hj, fill_ptable, if_neg hj]
    rfl

theorem schedule_forkedState_fill (hpcb : pcb ≠ child) {x : Block} (y : Block) {ctx : Nat}
    {mem : μ} (horder : (k.queues .ready).order = .prio)
    (h : schedule (forkedState (k.fill child x).toState pcb child ctx mem) child = some s') :
    ∃ t', schedule (forkedState (k.fill child y).toState pcb child ctx mem) child = some t' := by
  have hready : ∀ z : Block,
      ((forkedState (k.fill child z).toState pcb child ctx mem).ptable child).state = .ready := by
    intro z
    rw [forkedState_ptable hpcb, if_pos rfl]
    rfl
  have hnext : ((forkedState (k.fill child x).toState pcb child ctx mem).modify child
      Pcb.woken).next = ((forkedState (k.fill child y).toState pcb child ctx mem).modify child
      Pcb.woken).next := by
    funext j
    unfold State.next
    rw [forkedState_fill_ptable hpcb, forkedState_fill_ptable hpcb]
    split_ifs <;> rfl
  have hkey : ∀ j, (((forkedState (k.fill child x).toState pcb child ctx mem).modify child
      Pcb.woken).ptable j).priority = (((forkedState (k.fill child y).toState pcb child ctx
      mem).modify child Pcb.woken).ptable j).priority := by
    intro j
    rw [forkedState_fill_ptable hpcb, forkedState_fill_ptable hpcb]
    split_ifs <;> rfl
  have hqueues : ∀ z : Block, ((forkedState (k.fill child z).toState pcb child ctx mem).modify
      child Pcb.woken).queues = (allocated k.toState child).queues := by
    intro z
    simp only [forkedState, modify_queues, allocated, fill_next]
    rfl
  unfold schedule at h ⊢
  rw [hready, if_neg (by simp)] at h ⊢
  split at h
  case h_2 => simp at h
  case h_1 u hins =>
    obtain ⟨t', ht⟩ := pcbQueueInsert_same hnext ((hqueues x).trans (hqueues y).symm)
      (by rw [hqueues]; simpa [allocated] using horder) hkey hins
    refine ⟨t', ?_⟩
    unfold Pcb.woken at ht
    rw [ht]

/-- The shared memory a process can pop: address, pages and the sharer's process id. -/
def Pcb.pending (p : Pcb) : Option (Nat × Nat × Nat) :=
  if p.sharedMem = 0 then none else some (p.sharedMem, p.sharedMemPages, p.sharedMemSource)

/-- What a system call can observe of a block: every field but the link, which belongs to
the queues, and `wakeup` and `exit_status`, which are written before each use. The whole
segment table counts: `exec` of a truncated file shows what stood behind the bytes read. -/
structure Observed where
  memctx : Nat
  regs : Nat × Nat × Nat × (Reg → Nat)
  metadata : Nat × Option Slot × ProcState × Nat × Nat
  heap : Nat × Nat
  openFiles : Fin 64 → Nat
  elfHeader : Fin 64 → UInt8
  elfSegments : Fin 896 → UInt8
  nElfSegments : Nat
  syscall : Nat
  shared : Option (Nat × Nat × Nat)

def Block.observed (b : Block) : Observed where
  memctx := b.memctx
  regs := (b.rax, b.rdi, b.rsi, b.regs)
  metadata := (b.pid, b.parent, b.state, b.priority, b.ticks)
  heap := (b.heapStart, b.heapLen)
  openFiles := b.openFiles
  elfHeader := b.elfHeader
  elfSegments := b.elfSegments
  nElfSegments := b.nElfSegments
  syscall := b.syscall
  shared := b.pending

def Extra.SameElf (b p : Extra) : Prop :=
  b.elfHeader = p.elfHeader ∧ b.elfSegments = p.elfSegments ∧ b.nElfSegments = p.nElfSegments

theorem memcpy_eq_src_iff {n : Nat} (dst src : Fin n → UInt8) (len : Nat) :
    memcpy dst src len = src ↔ ∀ i : Fin n, len ≤ i.1 → dst i = src i := by
  rw [funext_iff]
  unfold memcpy
  constructor
  · intro h i hi
    have := h i
    rwa [if_neg (by omega)] at this
  · intro h i
    split_ifs with hi
    · rfl
    · exact h i (by omega)

theorem cloned_elfHeader (b p : Extra) : (b.cloned p).elfHeader = p.elfHeader :=
  (memcpy_eq_src_iff _ _ _).mpr fun i hi => absurd i.2 (by unfold sizeofEhdr at hi; omega)

theorem cloned_sameElf_iff (b p : Extra) :
    (b.cloned p).SameElf p ↔ ∀ i, sizeofEhdr ≤ i.1 → b.elfSegments i = p.elfSegments i := by
  unfold Extra.SameElf
  rw [cloned_elfHeader, ← memcpy_eq_src_iff]
  simp [Extra.cloned]

theorem Kernel.sysFork_observed (hfree : (k.queues .freelist).head = some child)
    (hpcb : pcb ≠ child) {x : Block} (h : (k.fill child x).sysFork ops pcb = some (0, k')) :
    k'.extra child = x.toExtra.cloned (k.extra pcb) ∧
      ∃ ctx mem, ops.memCtxClone k.mem (k.ptable pcb).memctx = some (ctx, mem) ∧
        (k'.block child).observed =
          { (k.block pcb).observed with
            memctx := ctx
            regs := (0, (k.ptable pcb).rdi, (k.ptable pcb).rsi, (k.extra pcb).regs)
            metadata := (k.nextPid, some pcb, .ready, (k.ptable pcb).priority, 0)
            openFiles := x.openFiles
            elfSegments := memcpy x.elfSegments (k.extra pcb).elfSegments sizeofEhdr
            syscall := 0
            shared := x.pending } := by
  have hx : (k.fill child x).extra child = x.toExtra := update_self _ _ _
  have hp : (k.fill child x).extra pcb = k.extra pcb := update_of_ne hpcb _ _
  have hfree' : ((k.fill child x).queues .freelist).head = some child := hfree
  obtain ⟨ctx, mem, t, hclone, -, hsched, rfl⟩ := (sysFork_eq_zero_iff hfree' hpcb).mp h
  rw [fill_ptable, if_neg hpcb] at hclone
  rw [hx, hp]
  have hextra : update (k.fill child x).extra child (x.toExtra.cloned (k.extra pcb))
      child = x.toExtra.cloned (k.extra pcb) := update_self _ _ _
  have hblock := (schedule_blocks hsched).block child
  rw [forkedState_fill_ptable hpcb, if_pos rfl] at hblock
  refine ⟨hextra, ctx, mem, hclone, ?_⟩
  simp only [Pcb.unlinked, Pcb.woken, Pcb.forked, Pcb.mk.injEq] at hblock
  simp only [Block.observed, Kernel.block, hextra, cloned_elfHeader, hblock, Pcb.pending]
  rfl

/-- A fork makes the child from its parent alone exactly if the slot held the same open
files and pending shared memory in both runs, and behind its first 64 bytes the parent's
segment table. -/
theorem fork_child_determined_iff (hfree : (k.queues .freelist).head = some child)
    (hpcb : pcb ≠ child) (horder : (k.queues .ready).order = .prio) {x : Block} (y : Block)
    {kx : Kernel μ} (hx : (k.fill child x).sysFork ops pcb = some (0, kx)) :
    ∃ ky, (k.fill child y).sysFork ops pcb = some (0, ky) ∧
      ((kx.block child).observed = (ky.block child).observed ∧
          (kx.extra child).SameElf (k.extra pcb) ∧ (ky.extra child).SameElf (k.extra pcb) ↔
        x.openFiles = y.openFiles ∧ x.pending = y.pending ∧
          ∀ i, sizeofEhdr ≤ i.1 → x.elfSegments i = (k.extra pcb).elfSegments i ∧
            y.elfSegments i = (k.extra pcb).elfSegments i) := by
  have hfree' : ∀ z, ((k.fill child z).queues .freelist).head = some child := fun _ => hfree
  obtain ⟨ctx, mem, t, hclone, hctx, hsched, -⟩ :=
    (Kernel.sysFork_eq_zero_iff (hfree' x) hpcb).mp hx
  obtain ⟨t', hsched'⟩ := schedule_forkedState_fill hpcb y horder hsched
  have hclone' : ops.memCtxClone (k.fill child y).mem ((k.fill child y).ptable pcb).memctx =
      some (ctx, mem) := by
    rw [fill_ptable, if_neg hpcb] at hclone ⊢
    exact hclone
  obtain ⟨ky, hy⟩ : ∃ ky, (k.fill child y).sysFork ops pcb = some (0, ky) :=
    ⟨_, (Kernel.sysFork_eq_zero_iff (hfree' y) hpcb).mpr ⟨ctx, mem, t', hclone', hctx, hsched', rfl⟩⟩
  refine ⟨ky, hy, ?_⟩
  obtain ⟨hex, cx, mx, hcx, hox⟩ := Kernel.sysFork_observed hfree hpcb hx
  obtain ⟨hey, cy, my, hcy, hoy⟩ := Kernel.sysFork_observed hfree hpcb hy
  obtain ⟨rfl, rfl⟩ : cx = cy ∧ mx = my := by simpa using hcx.symm.trans hcy
  rw [hex, hey, hox, hoy, cloned_sameElf_iff, cloned_sameElf_iff]
  simp only [Observed.mk.injEq, true_and]
  constructor
  · rintro ⟨⟨hfiles, -, hshared⟩, hsx, hsy⟩
    exact ⟨hfiles, hshared, fun i hi => ⟨hsx i hi, hsy i hi⟩⟩
  · rintro ⟨hfiles, hshared, hseg⟩
    have hsx := (memcpy_eq_src_iff x.elfSegments _ _).mpr fun i hi => (hseg i hi).1
    have hsy := (memcpy_eq_src_iff y.elfSegments _ _).mpr fun i hi => (hseg i hi).2
    exact ⟨⟨hfiles, hsx.trans hsy.symm, hshared⟩, fun i hi => (hseg i hi).1,
      fun i hi => (hseg i hi).2⟩

def zeroBlock : Block :=
  { zeroPcb with
    regs := fun _ => 0, openFiles := fun _ => 0, elfHeader := fun _ => 0
    elfSegments := fun _ => 0, nElfSegments := 0 }

def usedBlock : Block := { zeroBlock with openFiles := update (fun _ => 0) 0 0x1000 }

def bootKernel (s : State Unit) : Kernel Unit := { s with extra := fun _ => zeroBlock.toExtra }

/-- Init forks into a slot that was never used. -/
theorem fork_child_determined_iff_zero : ∃ k kx : Kernel Unit,
    (k.fill 1 zeroBlock).sysFork idleOps 0 = some (0, kx) ∧
      (kx.extra 1).SameElf (k.extra 0) := by
  obtain ⟨s, -, hs⟩ := booted_run (fun s => some ((s.queues .freelist).head,
      (s.queues .ready).order, (((bootKernel s).fill 1 zeroBlock).sysFork idleOps 0).map Prod.fst))
    (some 1, .prio, some 0) (by decide +kernel)
  simp only [some.injEq, Prod.mk.injEq] at hs
  obtain ⟨⟨_, kx⟩, hx, rfl⟩ := map_eq_some_iff.mp hs.2.2
  obtain ⟨ky, -, hiff⟩ := fork_child_determined_iff hs.1 (by decide) hs.2.1 zeroBlock hx
  exact ⟨bootKernel s, kx, hx, (hiff.mpr ⟨rfl, rfl, fun _ _ => ⟨rfl, rfl⟩⟩).2.1⟩

/-- Init forks into a slot in which an earlier process opened a file: the child has it open. -/
theorem forked_child_inherits_open_file : ∃ k kx ky : Kernel Unit,
    (k.fill 1 zeroBlock).sysFork idleOps 0 = some (0, kx) ∧
      (k.fill 1 usedBlock).sysFork idleOps 0 = some (0, ky) ∧
      (ky.extra 1).openFiles 0 = 0x1000 ∧
      (kx.block 1).observed ≠ (ky.block 1).observed := by
  obtain ⟨s, -, hs⟩ := booted_run (fun s => some ((s.queues .freelist).head,
      (((bootKernel s).fill 1 zeroBlock).sysFork idleOps 0).map Prod.fst,
      (((bootKernel s).fill 1 usedBlock).sysFork idleOps 0).map Prod.fst))
    (some 1, some 0, some 0) (by decide +kernel)
  simp only [some.injEq, Prod.mk.injEq] at hs
  obtain ⟨⟨_, kx⟩, hx, rfl⟩ := map_eq_some_iff.mp hs.2.1
  obtain ⟨⟨_, ky⟩, hy, hzero⟩ := map_eq_some_iff.mp hs.2.2
  subst hzero
  have hfilex : (kx.extra 1).openFiles 0 = 0 := by
    rw [(Kernel.sysFork_observed hs.1 (by decide) hx).1]
    rfl
  have hfiley : (ky.extra 1).openFiles 0 = 0x1000 := by
    rw [(Kernel.sysFork_observed hs.1 (by decide) hy).1]
    rfl
  refine ⟨bootKernel s, kx, ky, hx, hy, hfiley, fun hsame => ?_⟩
  have hfiles := congrFun (congrArg Observed.openFiles hsame) 0
  exact absurd (hfilex.symm.trans (hfiles.trans hfiley)) (by decide)

end Comus.Procs
