import Comus.Lib.Chain
import Comus.Lib.Word

/-!
# The process table and its queues (kernel/procs.c)

All queues are threaded through the one `next` field of the process control
blocks. A pointer to a control block is a slot of the table, null is `none`.
The memory state `μ` is left open here: the process code only hands it on to
the operations of `MemOps`. A result `none` is a panic, a failed assertion, a
fault, or a loop that never ends.
-/

namespace Comus.Procs

open Word List Function

/-- Index into `ptable`; `N_PROCS` is 256. -/
abbrev Slot : Type := Fin 256

scoped instance slots_neZero : NeZero 256 := ⟨by decide⟩

scoped instance slot_lawfulBEq : LawfulBEq Slot := inferInstance

theorem pred_lt_slots {k : Nat} (h : 0 < k ∧ k ≤ 256) : k - 1 < 256 := by omega

inductive ProcState where
  | unused | new | ready | running | blocked | zombie
  deriving Repr, DecidableEq

/-- The fields of `struct pcb` that the process and system-call code reads. Of the
registers only the result and the first two arguments are used there. -/
structure Pcb where
  memctx : Nat
  rax : Nat
  rdi : Nat
  rsi : Nat
  pid : Nat
  parent : Option Slot
  state : ProcState
  priority : Nat
  ticks : Nat
  heapStart : Nat
  heapLen : Nat
  next : Option Slot
  syscall : Nat
  wakeup : Nat
  exitStatus : Nat
  sharedMem : Nat
  sharedMemPages : Nat
  sharedMemSource : Nat
  deriving Repr, DecidableEq

inductive QueueOrder where
  | fifo | prio | pid | wakeup
  deriving Repr, DecidableEq

structure Queue where
  head : Option Slot
  tail : Option Slot
  order : QueueOrder
  deriving Repr, DecidableEq

/-- The queues of `procs.c`; `N_SYSCALLS` is 24. -/
inductive QueueId where
  | freelist | ready | zombie
  | syscall (num : Fin 24)
  deriving Repr, DecidableEq

inductive Status where
  | success | badParam | emptyQueue | notFound | noPcbs
  deriving Repr, DecidableEq

/-- The static variables of `procs.c`, the global tick counter and the memory. -/
structure State (μ : Type) where
  ptable : Slot → Pcb
  queues : QueueId → Queue
  currentPcb : Option Slot
  initPcb : Option Slot
  nextPid : Nat
  ticks : Nat
  mem : μ

variable {μ : Type}

def State.modify (s : State μ) (i : Slot) (f : Pcb → Pcb) : State μ :=
  { s with ptable := update s.ptable i (f (s.ptable i)) }

def State.modifyQueue (s : State μ) (q : QueueId) (f : Queue → Queue) : State μ :=
  { s with queues := update s.queues q (f (s.queues q)) }

def State.next (s : State μ) (i : Slot) : Option Slot := (s.ptable i).next

def State.setNext (s : State μ) (i : Slot) (v : Option Slot) : State μ :=
  s.modify i fun p => { p with next := v }

def State.setHead (s : State μ) (q : QueueId) (v : Option Slot) : State μ :=
  s.modifyQueue q fun x => { x with head := v }

def State.setTail (s : State μ) (q : QueueId) (v : Option Slot) : State μ :=
  s.modifyQueue q fun x => { x with tail := v }

def walkFuel : Nat := 257

def findPrevBy (key : Pcb → Nat) (s : State μ) (q : QueueId) (pcb : Slot) : Option (Option Slot) :=
  (Chain.walk s.next (fun curr => decide (key (s.ptable curr) ≤ key (s.ptable pcb))) walkFuel none
    (s.queues q).head).map Prod.fst

def findPrevWakeup (s : State μ) (q : QueueId) (pcb : Slot) : Option (Option Slot) :=
  findPrevBy Pcb.wakeup s q pcb

def findPrevPriority (s : State μ) (q : QueueId) (pcb : Slot) : Option (Option Slot) :=
  findPrevBy Pcb.priority s q pcb

def findPrevPid (s : State μ) (q : QueueId) (pcb : Slot) : Option (Option Slot) :=
  findPrevBy Pcb.pid s q pcb

def pcbQueueReset (s : State μ) (q : QueueId) (order : QueueOrder) : State μ :=
  s.modifyQueue q fun _ => ⟨none, none, order⟩

def findPrev (s : State μ) (q : QueueId) (pcb : Slot) : Option (Option Slot) :=
  match (s.queues q).order with
  | .fifo => some (s.queues q).tail
  | .prio => findPrevPriority s q pcb
  | .pid => findPrevPid s q pcb
  | .wakeup => findPrevWakeup s q pcb

def pcbQueueInsert (s : State μ) (q : QueueId) (pcb : Slot) : Option (Status × State μ) :=
  if (s.next pcb).isSome then some (.badParam, s)
  else if (s.queues q).head.isNone then
    some (.success, (s.setHead q (some pcb)).setTail q (some pcb))
  else if (s.queues q).tail.isNone then none
  else
    match findPrev s q pcb with
    | none => none
    | some none => some (.success, (s.setNext pcb (s.queues q).head).setHead q (some pcb))
    | some (some prev) =>
      if (s.next prev).isNone then
        some (.success, (s.setNext prev (some pcb)).setTail q (some pcb))
      else some (.success, (s.setNext pcb (s.next prev)).setNext prev (some pcb))

/-- `none` is the status `E_EMPTY_QUEUE`. -/
def pcbQueuePop (s : State μ) (q : QueueId) : Option (Slot × State μ) :=
  match (s.queues q).head with
  | none => none
  | some tmp =>
    let s := (s.setHead q (s.next tmp)).setNext tmp none
    some (tmp, if (s.queues q).head.isNone then s.setTail q none else s)

def unlinkNode (s : State μ) (q : QueueId) (prev : Option Slot) (curr : Slot) : State μ :=
  let s := match prev with
    | some prev => s.setNext prev (s.next curr)
    | none => s.setHead q (s.next curr)
  let s := if (s.next curr).isNone then s.setTail q prev else s
  s.setNext curr none

def pcbQueueRemove (s : State μ) (q : QueueId) (pcb : Slot) : Option (Status × State μ) :=
  if (s.queues q).head.isNone then some (.emptyQueue, s)
  else
    match Chain.walk s.next (fun curr => decide (curr ≠ pcb)) walkFuel none (s.queues q).head with
    | none => none
    | some (prev, none) => if prev.isNone then none else some (.notFound, s)
    | some (prev, some curr) =>
      let s := unlinkNode s q prev curr
      if (s.queues q).head.isNone = (s.queues q).tail.isNone then some (.success, s) else none

def pcbQueuePeek (s : State μ) (q : QueueId) : Option Slot := (s.queues q).head

def pcbFree (s : State μ) (pcb : Slot) : Option (State μ) :=
  match pcbQueueInsert (s.modify pcb fun p => { p with state := .unused }) .freelist pcb with
  | some (.success, s) => some s
  | _ => none

def pcbFreeAll : List Slot → State μ → Option (State μ)
  | [], s => some s
  | i :: is, s => (pcbFree s i).bind (pcbFreeAll is)

def initialOrder : QueueId → QueueOrder
  | .freelist => .fifo
  | .ready => .prio
  | .zombie => .pid
  | .syscall _ => .pid

def pcbInit (s : State μ) : Option (State μ) :=
  pcbFreeAll (finRange 256)
    { s with currentPcb := none, queues := fun q => ⟨none, none, initialOrder q⟩ }

/-- `none` is the status `E_NO_PCBS`. Process ids are 16 bits wide. -/
def pcbAlloc (s : State μ) : Option (Slot × State μ) :=
  match pcbQueuePop s .freelist with
  | none => none
  | some (tmp, s) =>
    some (tmp, { s.modify tmp fun p => { p with pid := s.nextPid, state := .new } with
      nextPid := (s.nextPid + 1) % 2^16 })

def pcbFindPid (s : State μ) (pid : Nat) : Option Slot :=
  if pid < 1 then none
  else (finRange 256).find? fun i =>
    decide ((s.ptable i).pid = pid) && decide ((s.ptable i).state ≠ .unused)

def schedule (s : State μ) (pcb : Slot) : Option (State μ) :=
  if (s.ptable pcb).state = .unused ∨ (s.ptable pcb).state = .zombie then none
  else
    match pcbQueueInsert (s.modify pcb fun p => { p with state := .ready, syscall := 0 })
      .ready pcb with
    | some (.success, s) => some s
    | _ => none

def Pcb.dispatched (p : Pcb) : Pcb := { p with state := .running, ticks := 3, syscall := 0 }

/-- One round of the loop in `dispatch`. With an empty ready queue the processor
waits for an interrupt, with no current process. -/
def dispatch (s : State μ) : Option (State μ) :=
  if s.currentPcb.isSome then none
  else
    match pcbQueuePop s .ready with
    | none => some s
    | some (pcb, s) =>
      some { s.modify pcb Pcb.dispatched with currentPcb := some pcb }

structure Image where
  memctx : Nat
  heapStart : Nat
  argc : Nat

def Pcb.load (image : Image) (p : Pcb) : Pcb :=
  { p with memctx := image.memctx, heapStart := image.heapStart, heapLen := 0
           rax := 0, rdi := image.argc, rsi := 0 }

/-- The memory functions the process code calls. `φ` is an open executable file;
context zero is the null context. -/
structure MemOps (μ φ : Type) where
  memCtxClone : μ → Nat → Option (Nat × μ)
  memCtxFree : μ → Nat → Option μ
  /-- A store of an `int` through a user pointer, with the context switched. -/
  store : μ → Nat → Nat → Nat → Option μ
  userLoad : μ → φ → Option (Option Image × μ)
  memAllocPages : μ → Nat → Nat → Nat → Option (Nat × μ)
  memAllocPagesAt : μ → Nat → Nat → Nat → Nat → Option (Nat × μ)
  memFreePages : μ → Nat → Nat → Option μ
  memMapaddr : μ → Nat → Nat → Nat → Nat → Nat → Option (Nat × μ)
  memGetPhys : μ → Nat → Nat → Option (Nat × μ)
  /-- The system calls on files and devices: number, calling block, result. -/
  device : μ → Nat → Pcb → Option (Int × μ)

variable {φ : Type} (ops : MemOps μ φ)

def pcbCleanup (s : State μ) (pcb : Slot) : Option (State μ) :=
  if (s.ptable pcb).memctx ≠ 0 then
    (ops.memCtxFree s.mem (s.ptable pcb).memctx).bind fun mem => pcbFree { s with mem := mem } pcb
  else pcbFree s pcb

def SYS_waitpid : Fin 24 := 1
def SYS_sleep : Fin 24 := 14

def reparentOne (victim : Slot) (acc : State μ × Option Slot) (curr : Slot) :
    State μ × Option Slot :=
  if (acc.1.ptable curr).state = .unused then acc
  else if (acc.1.ptable curr).parent ≠ some victim then acc
  else
    (acc.1.modify curr fun p => { p with parent := acc.1.initPcb },
      if (acc.1.ptable curr).state = .zombie then some curr else acc.2)

/-- The children of the victim, in table order; the last zombie among them is returned. -/
def reparent (s : State μ) (victim : Slot) : State μ × Option Slot :=
  (finRange 256).foldl (reparentOne victim) (s, none)

/-- `*status = exit_status` in the context of the waiting process, unless null. -/
def storeStatus (s : State μ) (waiter : Slot) (exitStatus : Nat) : Option (State μ) :=
  if (s.ptable waiter).rsi ≠ 0 then
    (ops.store s.mem (s.ptable waiter).memctx (s.ptable waiter).rsi exitStatus).map
      fun mem => { s with mem := mem }
  else some s

def argPid (s : State μ) (pcb : Slot) : Nat := (s.ptable pcb).rdi % 2^16

/-- The branch of `pcb_zombify` that passes a zombie child of the victim on to init.
Init leaves the waitpid queue in any case, but is scheduled only if it waits for
any child or for this one. -/
def passToInit (s : State μ) (init zchild : Slot) : Option (State μ) :=
  match pcbQueueRemove s .zombie zchild with
  | some (.success, s) =>
    match pcbQueueRemove s (.syscall SYS_waitpid) init with
    | some (.success, s) =>
      if argPid s init = 0 ∨ argPid s init = (s.ptable zchild).pid then
        let s := s.modify init fun p => { p with rax := (s.ptable zchild).pid }
        (storeStatus ops s init (s.ptable zchild).exitStatus).bind fun s =>
          (schedule s init).bind fun s => pcbCleanup ops s zchild
      else pcbCleanup ops s zchild
    | _ => none
  | _ => none

def becomeZombie (s : State μ) (victim : Slot) : Option (State μ) :=
  match pcbQueueInsert (s.modify victim fun p => { p with state := .zombie }) .zombie victim with
  | some (.success, s) => some s
  | _ => none

/-- The last part of `pcb_zombify`: a parent that waits for the victim is woken and
the victim is cleaned up, otherwise the victim becomes a zombie. -/
def tellParent (s : State μ) (parent victim : Slot) : Option (State μ) :=
  if (s.ptable parent).syscall = SYS_waitpid ∧
      (argPid s parent = 0 ∨ argPid s parent = (s.ptable victim).pid) then
    let s := s.modify parent fun p => { p with rax := (s.ptable victim).pid }
    match pcbQueueRemove s (.syscall SYS_waitpid) parent with
    | some (.success, s) =>
      (storeStatus ops s parent (s.ptable victim).exitStatus).bind fun s =>
        (schedule s parent).bind fun s => pcbCleanup ops s victim
    | _ => none
  else becomeZombie s victim

def pcbZombify (s : State μ) (victim : Slot) : Option (State μ) :=
  if (s.ptable victim).pid = 1 then none
  else
    match (s.ptable victim).parent with
    | none => none
    | some parent =>
      match reparent s victim with
      | (s, none) => tellParent ops s parent victim
      | (s, some zchild) =>
        match s.initPcb with
        | none => none
        | some init =>
          if (s.ptable init).syscall = SYS_waitpid then
            (passToInit ops s init zchild).bind fun s => tellParent ops s parent victim
          else tellParent ops s parent victim

def wakeSleepers : Nat → State μ → Option (State μ)
  | 0, _ => none
  | fuel + 1, s =>
    match pcbQueuePeek s (.syscall SYS_sleep) with
    | none => some s
    | some pcb =>
      if (s.ptable pcb).wakeup ≥ s.ticks then some s
      else
        match pcbQueueRemove s (.syscall SYS_sleep) pcb with
        | some (.success, s) => (schedule s pcb).bind (wakeSleepers fuel)
        | _ => none

def pcbOnTick (s : State μ) : Option (State μ) :=
  if s.initPcb.isNone then some s
  else
    (wakeSleepers walkFuel s).bind fun s =>
      match s.currentPcb with
      | none => some s
      | some pcb =>
        let s := s.modify pcb fun p => { p with ticks := sub64 p.ticks 1 }
        if (s.ptable pcb).ticks < 1 then
          -- schedule another process
          (schedule s pcb).bind fun s => dispatch { s with currentPcb := none }
        else some s

end Comus.Procs
