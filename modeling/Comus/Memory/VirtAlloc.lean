import Comus.Lib.Chain
import Comus.Lib.Word

/-!
# The virtual address allocator (kernel/memory/virtalloc.c)

Nodes live in arrays: the bootstrap array inside a context and at most one
array from the kernel heap. A node pointer is an array and an index, all node
memory is one function of pointers. Contexts only differ in their arrays, so a
context and its clone share this memory. `none` is a panic or a loop that does
not end.
-/

namespace Comus.VirtAlloc

open Word Function

structure Ptr where
  arr : Nat
  idx : Nat
  deriving Repr, DecidableEq

structure Node where
  start : Nat
  stop : Nat
  next : Option Ptr
  prev : Option Ptr
  isAlloc : Bool
  isUsed : Bool
  deriving Repr, DecidableEq

abbrev Heap : Type := Ptr → Node

/-- `struct virt_ctx`; `boot` is the array of its bootstrap nodes. -/
structure Ctx where
  boot : Nat
  allocNodes : Option Nat
  startNode : Option Ptr
  freeNodeStart : Nat
  allocNodeCount : Nat
  usedNodeCount : Nat
  isAllocating : Bool
  deriving Repr, DecidableEq

structure Virt where
  heap : Heap
  ctx : Ctx

def BOOTSTRAP_VIRT_ALLOC_NODES : Nat := 256

def PAGE_SIZE : Nat := 4096

def addressEnd : Nat := 0x1000000000000

def modify (h : Heap) (p : Ptr) (f : Node → Node) : Heap := update h p (f (h p))

def setNext (h : Heap) (p : Ptr) (v : Option Ptr) : Heap := modify h p fun n => { n with next := v }

def setPrev (h : Heap) (p : Ptr) (v : Option Ptr) : Heap := modify h p fun n => { n with prev := v }

def setNextIf (h : Heap) (p v : Option Ptr) : Heap :=
  match p with
  | none => h
  | some p => setNext h p v

def setPrevIf (h : Heap) (p v : Option Ptr) : Heap :=
  match p with
  | none => h
  | some p => setPrev h p v

/-- The kernel heap: an array for the given number of nodes, and its release. In the
kernel's own context both change the block list they are called for. -/
structure Kalloc where
  kalloc : Virt → Nat → Option (Nat × Virt)
  kfree : Virt → Option Nat → Option Virt

def getNodeIdx (c : Ctx) (idx : Nat) : Option Ptr :=
  if idx < BOOTSTRAP_VIRT_ALLOC_NODES then some ⟨c.boot, idx⟩
  else c.allocNodes.map fun a => ⟨a, idx - BOOTSTRAP_VIRT_ALLOC_NODES⟩

def copyNode (old new i idx : Nat) (h : Heap) : Heap :=
  let n : Ptr := ⟨new, idx⟩
  let h := update h n (h ⟨old, i⟩)
  let h := setNextIf h (h n).prev (some n)
  setPrevIf h (h n).next (some n)

def copyNodes (old new : Nat) : Nat → Nat → Nat → Heap → Heap × Nat
  | 0, _, idx, h => (h, idx)
  | k + 1, i, idx, h =>
    if (h ⟨old, i⟩).isUsed then copyNodes old new k (i + 1) (idx + 1) (copyNode old new i idx h)
    else copyNodes old new k (i + 1) idx h

def clearNodes (new : Nat) : Nat → Nat → Heap → Heap
  | 0, _, h => h
  | k + 1, idx, h => clearNodes new k (idx + 1) (modify h ⟨new, idx⟩ fun n => { n with isUsed := false })

def updateNodePtrs (old : Option Nat) (new oldLen newLen : Nat) (h : Heap) : Heap :=
  match old with
  | none => h
  | some old =>
    let (h, idx) := copyNodes old new oldLen 0 0 h
    clearNodes new (newLen - idx) idx h

def grownCount (c : Ctx) : Nat :=
  let newAlloc := toI32 (c.allocNodeCount * 2)
  if newAlloc < 8 then 8 else newAlloc.toNat

def growNodes (k : Kalloc) (v : Virt) : Option Virt :=
  let newAlloc := grownCount v.ctx
  match k.kalloc { v with ctx := { v.ctx with isAllocating := true } } newAlloc with
  | none => none
  | some (newNodes, v) =>
    let heap := updateNodePtrs v.ctx.allocNodes newNodes v.ctx.allocNodeCount newAlloc v.heap
    (k.kfree { v with heap := heap } v.ctx.allocNodes).map fun v =>
      { v with ctx := { v.ctx with
          allocNodes := some newNodes, allocNodeCount := newAlloc, isAllocating := false } }

def findUnused (v : Virt) : Nat → Nat → Option Ptr
  | 0, _ => none
  | k + 1, idx =>
    match getNodeIdx v.ctx idx with
    | none => none
    | some p => if (v.heap p).isUsed then findUnused v k (idx + 1) else some p

def takeNode (v : Virt) : Option (Ptr × Virt) :=
  let count := BOOTSTRAP_VIRT_ALLOC_NODES + v.ctx.allocNodeCount
  (findUnused v (count - v.ctx.freeNodeStart) v.ctx.freeNodeStart).map fun p =>
    (p, { heap := modify v.heap p fun n => { n with isUsed := true }
          ctx := { v.ctx with usedNodeCount := u64 (v.ctx.usedNodeCount + 1) } })

def mustGrow (c : Ctx) : Bool :=
  !c.isAllocating &&
    decide (u64 (c.usedNodeCount + 16) ≥ BOOTSTRAP_VIRT_ALLOC_NODES + c.allocNodeCount)

def getNode (k : Kalloc) (v : Virt) : Option (Ptr × Virt) :=
  if mustGrow v.ctx then (growNodes k v).bind takeNode else takeNode v

def freeNode (v : Virt) (p : Ptr) : Virt :=
  { heap := modify v.heap p fun n => { n with isUsed := false }
    ctx := { v.ctx with usedNodeCount := sub64 v.ctx.usedNodeCount 1 } }

def walkFuel : Nat := 2^64

/-- `n_pages * PAGE_SIZE`, an `int` product. -/
def nLength (nPages : Int) : Int := toI32 (nPages * 4096)

def nextOf (h : Heap) (p : Ptr) : Option Ptr := (h p).next

def prevOf (h : Heap) (p : Ptr) : Option Ptr := (h p).prev

def findNode (v : Virt) (skip : Node → Bool) : Option (Option Ptr) :=
  (Chain.walk (nextOf v.heap) (fun p => skip (v.heap p)) walkFuel none v.ctx.startNode).map Prod.snd

/-- Null is address zero. -/
def virtaddrAlloc (v : Virt) (nPages : Int) : Option Nat :=
  if nPages < 1 then some 0
  else
    (findNode v fun n => n.isAlloc ||
      decide (toI64 ((n.stop : Int) - (n.start : Int)) < nLength nPages)).map fun
        | some p => (v.heap p).start
        | none => 0

def takeSkips (virt : Nat) (nPages : Int) (n : Node) : Bool :=
  n.isAlloc || decide (n.start > virt) || decide (n.stop < toU64 (virt + nLength nPages))

def splitLeft (k : Kalloc) (v : Virt) (node : Ptr) (virt : Nat) : Option Virt :=
  if (v.heap node).start < virt then
    (getNode k v).map fun (left, v) =>
      let h := modify v.heap left fun n =>
        { n with next := some node, prev := (v.heap node).prev, start := (v.heap node).start
                 stop := virt, isAlloc := false }
      let h := setNextIf h (h node).prev (some left)
      { v with heap := setPrev h node (some left) }
  else some v

def splitRight (k : Kalloc) (v : Virt) (node : Ptr) (upper : Nat) : Option Virt :=
  if (v.heap node).stop > upper then
    (getNode k v).map fun (right, v) =>
      let h := modify v.heap right fun n =>
        { n with prev := some node, next := (v.heap node).next, start := upper
                 stop := (v.heap node).stop, isAlloc := false }
      let h := setPrevIf h (h node).next (some right)
      { v with heap := setNext h node (some right) }
  else some v

/-- The result is 0 for success and 1 for failure. -/
def virtaddrTake (k : Kalloc) (v : Virt) (virt : Nat) (nPages : Int) : Option (Nat × Virt) :=
  if nPages < 1 then some (0, v)
  else
    (findNode v (takeSkips virt nPages)).bind fun
      | none => some (1, v)
      | some node =>
        (splitLeft k v node virt).bind fun v =>
          (splitRight k v node (toU64 (virt + nLength nPages))).map fun v =>
            (0, { v with heap := modify v.heap node fun n =>
              { n with start := virt, stop := toU64 (virt + nLength nPages), isAlloc := true } })

def absorbPrev (v : Virt) (node prev : Ptr) : Virt :=
  let h := modify v.heap node fun n =>
    { n with start := (v.heap prev).start, prev := (v.heap prev).prev }
  let h := setNextIf h (h node).prev (some node)
  freeNode { v with heap := h } prev

/-- The link of a released node is read after its release. -/
def mergeBackLoop : Nat → Virt → Ptr → Option Ptr → Option Virt
  | 0, _, _, _ => none
  | _ + 1, v, _, none => some v
  | fuel + 1, v, node, some prev =>
    if (v.heap prev).isAlloc then some v
    else
      let v := absorbPrev v node prev
      mergeBackLoop fuel v node (v.heap prev).prev

def mergeBack (v : Virt) (node : Ptr) : Option Virt :=
  (mergeBackLoop walkFuel v node (v.heap node).prev).map fun v =>
    if (v.heap node).prev.isNone then { v with ctx := { v.ctx with startNode := some node } } else v

def absorbNext (v : Virt) (node next : Ptr) : Virt :=
  let h := modify v.heap node fun n =>
    { n with stop := (v.heap next).stop, next := (v.heap next).next }
  let h := setPrevIf h (h node).next (some node)
  freeNode { v with heap := h } next

def mergeForwardLoop : Nat → Virt → Ptr → Option Ptr → Option Virt
  | 0, _, _, _ => none
  | _ + 1, v, _, none => some v
  | fuel + 1, v, node, some next =>
    if (v.heap next).isAlloc then some v
    else
      let v := absorbNext v node next
      mergeForwardLoop fuel v node (v.heap next).next

def mergeForward (v : Virt) (node : Ptr) : Option Virt :=
  mergeForwardLoop walkFuel v node (v.heap node).next

/-- The page count of the node as it was found, or -1. The length is an `int`. -/
def virtaddrFree (v : Virt) (virt : Nat) : Option (Int × Virt) :=
  if virt = 0 then some (-1, v)
  else if virt % PAGE_SIZE ≠ 0 then some (-1, v)
  else
    (findNode v fun n => decide (n.start ≠ virt)).bind fun
      | none => some (-1, v)
      | some node =>
        let length := toI32 (((v.heap node).stop : Int) - ((v.heap node).start : Int))
        let v := { v with heap := modify v.heap node fun n => { n with isAlloc := false } }
        (mergeBack v node).bind fun v =>
          (mergeForward v node).map fun v => (Int.tdiv length 4096, v)

def zeroNode : Node := ⟨0, 0, none, none, false, false⟩

/-- `memset`, then one free node for the whole address space. -/
def emptyVirt (h : Heap) (boot : Nat) : Virt where
  heap := fun p =>
    if p.arr = boot ∧ p.idx < BOOTSTRAP_VIRT_ALLOC_NODES then
      if p.idx = 0 then ⟨0, addressEnd, none, none, false, true⟩ else zeroNode
    else h p
  ctx :=
    { boot := boot, allocNodes := none, startNode := some ⟨boot, 0⟩, freeNodeStart := 0
      allocNodeCount := 0, usedNodeCount := 0, isAllocating := false }

/-- The kernel's size in bytes is passed as a number of pages. -/
def reservedPages (kernelEnd : Nat) : Int := toI32 (alignUp PAGE_SIZE kernelEnd : Nat)

def virtaddrInit (k : Kalloc) (h : Heap) (boot kernelEnd : Nat) : Option Virt :=
  (virtaddrTake k (emptyVirt h boot) 0 (reservedPages kernelEnd)).map Prod.snd

def copyBoot (h : Heap) (old new : Nat) : Heap := fun p =>
  if p.arr = new ∧ p.idx < BOOTSTRAP_VIRT_ALLOC_NODES then h ⟨old, p.idx⟩ else h p

def relinkBoot (new : Nat) : Nat → Nat → Heap → Heap
  | 0, _, h => h
  | k + 1, i, h =>
    relinkBoot new k (i + 1) (modify h ⟨new, i⟩ fun n =>
      { n with
        prev := if i > 0 then some ⟨new, i - 1⟩ else none
        next := if i < BOOTSTRAP_VIRT_ALLOC_NODES - 1 then some ⟨new, i + 1⟩ else none })

/-- `new` is the array of the new context's bootstrap nodes, `newNodes` the result of
`kalloc`. The new context is returned with the memory of both. -/
def virtaddrClone (v : Virt) (new : Nat) (newNodes : Option Nat) : Option Virt :=
  newNodes.map fun newNodes =>
    let h := copyBoot v.heap v.ctx.boot new
    let h := updateNodePtrs v.ctx.allocNodes newNodes v.ctx.allocNodeCount v.ctx.allocNodeCount h
    let h := relinkBoot new (min v.ctx.usedNodeCount BOOTSTRAP_VIRT_ALLOC_NODES) 0 h
    { heap := h
      ctx := { v.ctx with boot := new, allocNodes := some newNodes, startNode := some ⟨new, 0⟩ } }

end Comus.VirtAlloc
