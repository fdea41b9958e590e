import Comus.Procs.Table

/-!
# System calls (kernel/syscall.c, kernel/user.c) and the kernel's steps

A handler either returns a code to the calling process or has dispatched
another one. The calls on files and devices read nothing of the process table
but the caller's block; they are one memory operation.
-/

namespace Comus.Procs

open Word

variable {μ φ : Type} (ops : MemOps μ φ)

inductive Handled (μ : Type) where
  | ret (code : Int) (s : State μ)
  | dispatched (s : State μ)

def F_PRESENT : Nat := 0x001
def F_WRITEABLE : Nat := 0x002
def F_UNPRIVILEGED : Nat := 0x004

def PAGE_SIZE : Nat := 4096

def handOver (s : State μ) : Option (Handled μ) := (dispatch s).map .dispatched

def sysExit (s : State μ) (pcb : Slot) : Option (Handled μ) :=
  let s := s.modify pcb fun p => { p with exitStatus := p.rdi % 2^8 }
  (pcbZombify ops s pcb).bind handOver

/-- The condition under which the loop of `sys_waitpid` takes a child. -/
def reapable (s : State μ) (pcb child : Slot) : Bool :=
  decide ((s.ptable child).state = .zombie) && decide ((s.ptable child).parent = some pcb) &&
    (decide (argPid s pcb = 0) || decide (argPid s pcb = (s.ptable child).pid))

/-- A zombie child is cleaned up where it stands: it is not taken out of the zombie queue. -/
def sysWaitpid (s : State μ) (pcb : Slot) : Option (Handled μ) :=
  match (List.finRange 256).find? (reapable s pcb) with
  | some child =>
    (ops.store s.mem (s.ptable pcb).memctx (s.ptable pcb).rsi
      (s.ptable child).exitStatus).bind fun mem =>
        (pcbCleanup ops { s with mem := mem } child).map fun s => .ret (s.ptable child).pid s
  | none =>
    match pcbQueueInsert (s.modify pcb fun p => { p with state := .blocked })
      (.syscall SYS_waitpid) pcb with
    | some (.success, s) => handOver s
    | _ => none

def userClone (s : State μ) (pcb : Slot) : Option (Option Slot × State μ) :=
  match pcbAlloc s with
  | none => some (none, s)
  | some (child, s) =>
    (ops.memCtxClone s.mem (s.ptable pcb).memctx).map fun (ctx, mem) =>
      let s := { s with mem := mem }
      let parent := s.ptable pcb
      let s := s.modify child fun p =>
        { p with memctx := ctx, rax := parent.rax, rdi := parent.rdi, rsi := parent.rsi }
      if ctx = 0 then (none, s)
      else
        (some child, s.modify child fun p =>
          { p with
            parent := some pcb, state := .ready, priority := parent.priority, ticks := 0
            heapStart := parent.heapStart, heapLen := parent.heapLen })

def sysFork (s : State μ) (pcb : Slot) : Option (Handled μ) :=
  (userClone ops s pcb).bind fun
    | (none, s) => some (.ret (-1) s)
    | (some child, s) =>
      let s := s.modify child fun p => { p with rax := 0 }
      let s := s.modify pcb fun p => { p with rax := (s.ptable child).pid }
      (schedule s child).map (.ret 0)

/-- `file` is the opened executable, if there is one. A failed load restores the block. -/
def sysExec (file : Option φ) (s : State μ) (pcb : Slot) : Option (Handled μ) :=
  match file with
  | none => some (.ret 1 s)
  | some file =>
    (ops.userLoad s.mem file).bind fun
      | (none, mem) => some (.ret 1 { s with mem := mem })
      | (some image, mem) =>
        let old := (s.ptable pcb).memctx
        let s := { s with mem := mem }
        let s := s.modify pcb (Pcb.load image)
        (ops.memCtxFree s.mem old).bind fun mem =>
          (schedule { s with mem := mem } pcb).bind handOver

def sysGetppid (s : State μ) (pcb : Slot) : Option (Handled μ) :=
  match (s.ptable pcb).parent with
  | some parent => some (.ret (s.ptable parent).pid s)
  | none => s.initPcb.map fun init => .ret (s.ptable init).pid s

def sysGetprio (s : State μ) (pcb : Slot) : Option (Handled μ) :=
  some (.ret 0 (s.modify pcb fun p => { p with rax := p.priority % 2^32 }))

def sysSetprio (s : State μ) (pcb : Slot) : Option (Handled μ) :=
  some (.ret 0 (s.modify pcb fun p =>
    { p with rax := p.priority % 2^32, priority := p.rdi % 2^32 }))

/-- The loop of `sys_kill` up the chain of parents, until a block with the caller's
process id. A chain longer than the table is a cycle. -/
def findOwner (s : State μ) (pid : Nat) : Nat → Option Slot → Option (Option Slot)
  | 0, _ => none
  | _ + 1, none => some none
  | fuel + 1, some i =>
    if (s.ptable i).pid = pid then some (some i) else findOwner s pid fuel (s.ptable i).parent

def sysKill (s : State μ) (pcb : Slot) : Option (Handled μ) :=
  match pcbFindPid s (argPid s pcb) with
  | none => some (.ret 1 s)
  | some victim =>
    (findOwner s (s.ptable pcb).pid walkFuel (some victim)).bind fun
      | none => some (.ret 1 s)
      | some _ =>
        match (s.ptable victim).state with
        | .zombie => some (.ret 0 s)
        | .ready =>
          let s := s.modify victim fun p => { p with exitStatus := 1 }
          (pcbQueueRemove s .ready victim).bind fun (_, s) =>
            (pcbZombify ops s victim).map (.ret 0)
        | .blocked =>
          let s := s.modify victim fun p => { p with exitStatus := 1 }
          if h : (s.ptable victim).syscall < 24 then
            (pcbQueueRemove s (.syscall ⟨_, h⟩) victim).bind fun (_, s) =>
              (pcbZombify ops s victim).map (.ret 0)
          else none
        | .running =>
          let s := s.modify pcb fun p => { p with exitStatus := 1 }
          (pcbZombify ops s pcb).bind handOver
        | .unused | .new => some (.ret 1 s)

def sysSleep (s : State μ) (pcb : Slot) : Option (Handled μ) :=
  if (s.ptable pcb).rdi = 0 then
    (schedule (s.modify pcb fun p => { p with rax := 0 }) pcb).bind handOver
  else
    let s := s.modify pcb fun p => { p with wakeup := u64 (s.ticks + p.rdi) }
    (pcbQueueInsert s (.syscall SYS_sleep) pcb).bind fun
      | (.success, s) => handOver (s.modify pcb fun p => { p with state := .blocked })
      | (_, s) => some (.ret 1 s)

def heapPages (len : Nat) : Nat := u64 (len + PAGE_SIZE - 1) / PAGE_SIZE

/-- `pcb_update_heap`; the result is the old break, or null. -/
def pcbUpdateHeap (s : State μ) (pcb : Slot) (increment : Int) : Option (Nat × State μ) :=
  let p := s.ptable pcb
  let newPages := heapPages (toU64 (p.heapLen + increment))
  let currBrk := u64 (p.heapStart + p.heapLen)
  let currPages := if p.heapLen = 0 then 0 else heapPages p.heapLen
  if increment = 0 ∨ newPages = currPages then some (currBrk, s)
  else if newPages < currPages then
    (ops.memFreePages s.mem p.memctx (u64 (p.heapStart + newPages * PAGE_SIZE))).map fun mem =>
      (currBrk, { s with mem := mem }.modify pcb fun p => { p with heapLen := newPages * PAGE_SIZE })
  else
    (ops.memAllocPagesAt s.mem p.memctx (newPages - currPages)
      (u64 (p.heapStart + currPages * PAGE_SIZE))
      (F_PRESENT + F_WRITEABLE + F_UNPRIVILEGED)).map fun (virt, mem) =>
        if virt = 0 then (0, { s with mem := mem })
        else
          (currBrk,
            { s with mem := mem }.modify pcb fun p => { p with heapLen := newPages * PAGE_SIZE })

def sysBrk (s : State μ) (pcb : Slot) : Option (Handled μ) :=
  let p := s.ptable pcb
  if p.rdi < p.heapStart then some (.ret 0 (s.modify pcb fun p => { p with rax := 0 }))
  else
    (pcbUpdateHeap ops s pcb (toI64 (toI64 p.rdi - (toI64 p.heapStart + p.heapLen)))).map
      fun (brk, s) => .ret 0 (s.modify pcb fun p => { p with rax := brk })

def sysSbrk (s : State μ) (pcb : Slot) : Option (Handled μ) :=
  (pcbUpdateHeap ops s pcb (toI64 (s.ptable pcb).rdi)).map
    fun (brk, s) => .ret 0 (s.modify pcb fun p => { p with rax := brk })

/-- The shared block is looked up in the sharer's tables as they are now; the result
of `mem_get_phys` is not checked. -/
def sysPopsharedmem (s : State μ) (pcb : Slot) : Option (Handled μ) :=
  let s := s.modify pcb fun p => { p with rax := 0 }
  let p := s.ptable pcb
  if p.sharedMem = 0 then some (.ret 1 s)
  else
    match pcbFindPid s p.sharedMemSource with
    | none => some (.ret 1 (s.modify pcb fun p => { p with sharedMem := 0 }))
    | some sharer =>
      (ops.memGetPhys s.mem (s.ptable sharer).memctx p.sharedMem).bind fun (phys, mem) =>
        (ops.memMapaddr mem p.memctx phys p.sharedMem (u64 (p.sharedMemPages * PAGE_SIZE))
          (F_WRITEABLE + F_UNPRIVILEGED)).map fun (result, mem) =>
            .ret 0 ({ s with mem := mem }.modify pcb fun p =>
              { p with rax := result, sharedMem := 0 })

def sysAllocshared (s : State μ) (pcb : Slot) : Option (Handled μ) :=
  let s := s.modify pcb fun p => { p with rax := 0 }
  let p := s.ptable pcb
  let otherpid := p.rsi % 2^16
  if otherpid = p.pid ∨ otherpid = 0 then some (.ret 1 s)
  else
    match pcbFindPid s otherpid with
    | none => some (.ret 1 s)
    | some otherpcb =>
      if (s.ptable otherpcb).sharedMem ≠ 0 then some (.ret 1 s)
      else
        (ops.memAllocPages s.mem p.memctx p.rdi (F_WRITEABLE + F_UNPRIVILEGED)).map
          fun (alloced, mem) =>
            let s := { s with mem := mem }
            if alloced = 0 then .ret 1 s
            else
              let s := s.modify otherpcb fun q =>
                { q with sharedMem := alloced, sharedMemSource := p.pid, sharedMemPages := p.rdi }
              .ret 0 (s.modify pcb fun p => { p with rax := alloced })

/-- `syscall_tbl`. The entries that are not listed are the calls on files and devices. -/
def handler (num : Nat) (file : Option φ) (s : State μ) (pcb : Slot) : Option (Handled μ) :=
  match num with
  | 0 => sysExit ops s pcb
  | 1 => sysWaitpid ops s pcb
  | 2 => sysFork ops s pcb
  | 3 => sysExec ops file s pcb
  | 8 => some (.ret (s.ptable pcb).pid s)
  | 9 => sysGetppid s pcb
  | 11 => sysGetprio s pcb
  | 12 => sysSetprio s pcb
  | 13 => sysKill ops s pcb
  | 14 => sysSleep s pcb
  | 15 => sysBrk ops s pcb
  | 16 => sysSbrk ops s pcb
  | 19 => some (.ret 0 (s.modify pcb fun p => { p with rax := s.ticks }))
  | 21 => sysAllocshared ops s pcb
  | 22 => sysPopsharedmem ops s pcb
  | num => (ops.device s.mem num (s.ptable pcb)).map fun (code, mem) => .ret code { s with mem := mem }

def finish (pcb : Slot) : Handled μ → State μ
  | .dispatched s => s
  | .ret code s =>
    { s.modify pcb fun p =>
        { p with rax := if code ≠ 0 then toU64 code else p.rax, syscall := 0 } with
      currentPcb := some pcb }

def syscallHandler (file : Option φ) (s : State μ) : Option (State μ) :=
  match s.currentPcb with
  | none => none
  | some pcb =>
    let num := (s.ptable pcb).rax
    let s := { s.modify pcb fun p => { p with rax := 0, syscall := num } with currentPcb := none }
    if num ≥ 24 then
      -- kill process
      let s := s.modify pcb fun p => { p with exitStatus := 1 }
      (pcbZombify ops s pcb).bind dispatch
    else (handler ops num file s pcb).map (finish pcb)

/-- What can happen next: the running process makes a system call, with the register
values it chose and the file `exec` would open, or the timer fires. -/
inductive Op (φ : Type) where
  | syscall (rax rdi rsi : Nat) (file : Option φ)
  | tick

/-- An interrupt first saves the registers of the running process. A timer interrupt
that finds the processor waiting returns into the loop of `dispatch`. -/
def step (s : State μ) : Op φ → Option (State μ)
  | .syscall rax rdi rsi file =>
    match s.currentPcb with
    | none => none
    | some pcb =>
      syscallHandler ops file
        (s.modify pcb fun p => { p with rax := u64 rax, rdi := u64 rdi, rsi := u64 rsi })
  | .tick =>
    (pcbOnTick { s with ticks := u64 (s.ticks + 1) }).bind fun s =>
      if s.currentPcb.isNone then dispatch s else some s

def zeroPcb : Pcb where
  memctx := 0
  rax := 0
  rdi := 0
  rsi := 0
  pid := 0
  parent := none
  state := .unused
  priority := 0
  ticks := 0
  heapStart := 0
  heapLen := 0
  next := none
  syscall := 0
  wakeup := 0
  exitStatus := 0
  sharedMem := 0
  sharedMemPages := 0
  sharedMemSource := 0

def statics (mem : μ) : State μ where
  ptable := fun _ => zeroPcb
  queues := fun _ => ⟨none, none, .fifo⟩
  currentPcb := none
  initPcb := none
  nextPid := 1
  ticks := 0
  mem := mem

/-- `load_init`; it never returns when init can be loaded. -/
def loadInit (file : φ) (s : State μ) : Option (State μ) :=
  match pcbAlloc s with
  | none => none
  | some (init, s) =>
    let s := { s with initPcb := some init }
    (ops.userLoad s.mem file).bind fun
      | (none, _) => none
      | (some image, mem) =>
        let s := { s with mem := mem }
        let s := s.modify init (Pcb.load image)
        (schedule s init).bind dispatch

def bootProcs (file : φ) (mem : μ) : Option (State μ) :=
  (pcbInit (statics mem)).bind (loadInit ops file)

end Comus.Procs
