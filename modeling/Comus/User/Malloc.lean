import Comus.Lib.Bytes
import Comus.Lib.Run
import Comus.Lib.Word

/-!
# The heap of user programs (user/lib/alloc.c)

Headers stand in the heap in front of the blocks and are read and written as
words of byte memory. `sbrk` is taken as it is documented: the heap grows and
shrinks at its end, in pages. An access outside the heap is a fault. `live` is
not in the program: it records the blocks that `malloc` has returned and the
program has not freed, with the sizes it asked for.
-/

namespace Comus.User

open Word Bytes

inductive Field where
  | next | prev | nodeNumber | free | used | magic
  deriving Repr, DecidableEq

def Field.off : Field → Nat
  | .next => 0
  | .prev => 8
  | .nodeNumber => 16
  | .free => 24
  | .used => 32
  | .magic => 40

def headerLen : Nat := 48
def PAGE_SIZE : Nat := 4096
def MAGIC : Nat := 0xBEEFCAFE

/-- The end of the addresses a heap can have: the top of the stack. -/
def heapLimit : Nat := 0x800000000000

structure Heap where
  mem : Memory
  heapStart : Nat
  brk : Nat
  startHeader : Nat
  endHeader : Nat
  live : List (Nat × Nat)

def hdr (m : Memory) (h : Nat) (f : Field) : Nat := load64 m (h + f.off)

def Heap.get (s : Heap) (h : Nat) (f : Field) : Option Nat :=
  if s.heapStart ≤ h + f.off ∧ h + f.off + 8 ≤ s.brk then some (hdr s.mem h f) else none

def Heap.set (s : Heap) (h : Nat) (f : Field) (v : Nat) : Option Heap :=
  if s.heapStart ≤ h + f.off ∧ h + f.off + 8 ≤ s.brk then
    some { s with mem := store64 s.mem (h + f.off) v }
  else none

/-- The documented `sbrk`; `room` says whether there is memory to grow. Null is zero. -/
def sbrk (s : Heap) (increment : Int) (room : Bool) : Nat × Heap :=
  if increment = 0 then (s.brk, s)
  else
    let newLen : Int := (s.brk - s.heapStart : Nat) + increment
    if newLen < 0 then (0, s)
    else
      let newBrk := s.heapStart + (newLen.toNat + PAGE_SIZE - 1) / PAGE_SIZE * PAGE_SIZE
      if newBrk ≤ s.brk ∨ (room ∧ newBrk ≤ heapLimit) then (s.brk, { s with brk := newBrk })
      else (0, s)

def allocPages (s : Heap) (pages : Nat) (room : Bool) : Nat × Heap :=
  let query := sbrk s 0 room
  if query.1 = 0 then (0, query.2)
  else
    let grown := sbrk query.2 (toI64 (u64 (pages * PAGE_SIZE))) room
    if grown.1 = 0 then (0, grown.2) else (query.1, grown.2)

def Heap.newNode (s : Heap) : Option Nat :=
  if s.endHeader ≠ 0 then (s.get s.endHeader .nodeNumber).map fun n => u64 (n + 1) else some 0

def allocNew (s : Heap) (size : Nat) (room : Bool) : Option (Nat × Heap) :=
  let pages := u64 (size + headerLen) / PAGE_SIZE + 1
  let grown := allocPages s pages room
  let addr := grown.1
  let s := grown.2
  let total := u64 (pages * PAGE_SIZE)
  let free := sub64 total (u64 (size + headerLen))
  if addr = 0 then some (0, s)
  else do
    let node ← s.newNode
    let s ← s.set addr .magic MAGIC
    let s ← s.set addr .used size
    let s ← s.set addr .free free
    let s ← s.set addr .prev s.endHeader
    let s ← s.set addr .next 0
    let s ← s.set addr .nodeNumber node
    let s := if s.startHeader = 0 then { s with startHeader := addr } else s
    if s.endHeader ≠ 0 then
      let s ← s.set s.endHeader .next addr
      some (u64 (addr + headerLen), s)
    else some (u64 (addr + headerLen), { s with endHeader := addr })

def allocBlock (s : Heap) (size block : Nat) : Option (Nat × Heap) := do
  let header := u64 (block + (← s.get block .used) + headerLen)
  let free := sub64 (← s.get block .free) (u64 (size + headerLen))
  let s ← s.set block .free 0
  let s ← s.set header .magic MAGIC
  let s ← s.set header .used size
  let s ← s.set header .free free
  let s ← s.set header .prev block
  let s ← s.set header .next (← s.get block .next)
  let s ← s.set block .next header
  let s ← s.set header .nodeNumber (← s.get block .nodeNumber)
  some (u64 (header + headerLen), s)

/-- The loop of `malloc`: the first header with room for a header and `size` bytes, or null. -/
def findFit (s : Heap) (size : Nat) : Nat → Nat → Option Nat
  | 0, _ => none
  | fuel + 1, header =>
    if header = 0 then some 0
    else do
      let free ← s.get header .free
      if free < headerLen then findFit s size fuel (← s.get header .next)
      else if size ≤ free - headerLen then some header
      else findFit s size fuel (← s.get header .next)

def Heap.fuel (s : Heap) : Nat := s.brk + 1

def malloc (s : Heap) (size : Nat) (room : Bool) : Option (Nat × Heap) := do
  let header ← findFit s size s.fuel s.startHeader
  let (ptr, s) ← if header ≠ 0 then allocBlock s size header else allocNew s size room
  some (ptr, if ptr = 0 then s else { s with live := (ptr, size) :: s.live })

def bothUsed (s : Heap) (neighbor header : Nat) : Option Bool := do
  if (← s.get neighbor .used) ≠ 0 then some ((← s.get header .used) != 0) else some false

def mergeLeft : Nat → Heap → (header neighbor : Nat) → Option (Nat × Heap)
  | 0, _, _, _ => none
  | fuel + 1, s, header, neighbor =>
    if neighbor = 0 then some (header, s)
    else do
      if (← s.get neighbor .nodeNumber) ≠ (← s.get header .nodeNumber) then some (header, s)
      else if (← bothUsed s neighbor header) then some (header, s)
      else
        let s ← s.set neighbor .free
          (u64 ((← s.get neighbor .free) + ((← s.get header .free) + headerLen)))
        let s ← s.set neighbor .next (← s.get header .next)
        mergeLeft fuel s neighbor (← s.get neighbor .prev)

def mergeRight : Nat → Heap → (header neighbor : Nat) → Option Heap
  | 0, _, _, _ => none
  | fuel + 1, s, header, neighbor =>
    if neighbor = 0 then some s
    else do
      if (← s.get neighbor .nodeNumber) ≠ (← s.get header .nodeNumber) then some s
      else if (← s.get neighbor .used) ≠ 0 then some s
      else
        let s ← s.set header .free
          (u64 ((← s.get header .free) + ((← s.get neighbor .free) + headerLen)))
        let s ← s.set header .next (← s.get neighbor .next)
        mergeRight fuel s header (← s.get neighbor .next)

/-- `free_pages`: whether the pages were given back. The heap shrinks at its end. -/
def freePages (s : Heap) (header : Nat) : Option (Bool × Heap) := do
  if (← s.get header .next) ≠ 0 then some (false, s)
  else if (← s.get header .used) ≠ 0 then some (false, s)
  else
    let free ← s.get header .free
    some (true, (sbrk s (toI64 (sub64 0 (u64 (free + headerLen)))) true).2)

def otherNode (s : Heap) (header neighbor : Nat) : Option Bool :=
  if neighbor = 0 then some true
  else do some ((← s.get neighbor .nodeNumber) != (← s.get header .nodeNumber))

/-- The end of `free`: a node without any block in use is given back. -/
def releaseNode (s : Heap) (header : Nat) : Option Heap := do
  if !(← otherNode s header (← s.get header .next)) then some s
  else if !(← otherNode s header (← s.get header .prev)) then some s
  else if (← s.get header .used) ≠ 0 then some s
  else
    let (freed, s) ← freePages s header
    if !freed then some s
    else
      let next ← s.get header .next
      let s ← if next ≠ 0 then s.set next .prev (← s.get header .prev) else some s
      let prev ← s.get header .prev
      if prev ≠ 0 then s.set prev .next (← s.get header .next) else some s

def free (s : Heap) (ptr : Nat) : Option Heap :=
  let header := sub64 ptr headerLen
  if ptr = 0 then some s
  else do
    if (← s.get header .magic) ≠ MAGIC then some s
    else
      let s ← s.set header .free (u64 ((← s.get header .free) + (← s.get header .used)))
      let s ← s.set header .used 0
      let (header, s) ← mergeLeft s.fuel s header (← s.get header .prev)
      let s ← mergeRight s.fuel s header (← s.get header .next)
      releaseNode s header

inductive HeapOp where
  | malloc (size : Nat) (room : Bool)
  | free (ptr : Nat)
  | store (addr : Nat) (byte : UInt8)

def heapStep (s : Heap) : HeapOp → Option Heap
  | .malloc size room => (malloc s size room).map Prod.snd
  | .free ptr => (free s ptr).map fun s => { s with live := s.live.eraseP fun b => b.1 = ptr }
  | .store addr byte => some { s with mem := Function.update s.mem addr byte }

/-- The program frees live blocks and writes into live blocks only; a size is a `size_t`. -/
def Legal (s : Heap) : HeapOp → Prop
  | .malloc size _ => size < 2^64
  | .free ptr => ∃ b ∈ s.live, b.1 = ptr
  | .store addr _ => ∃ b ∈ s.live, b.1 ≤ addr ∧ addr < b.1 + b.2

def InBlock (b : Nat × Nat) (x : Nat) : Prop := b.1 ≤ x ∧ x < b.1 + b.2
def InWhole (b : Nat × Nat) (x : Nat) : Prop := b.1 ≤ x + headerLen ∧ x < b.1 + b.2

/-- Every live block is in the heap and apart from all other live blocks and headers. -/
structure BlocksApart (s : Heap) : Prop where
  inside : ∀ b ∈ s.live, s.heapStart ≤ b.1 ∧ b.1 + b.2 ≤ s.brk
  apart : s.live.Pairwise fun a b =>
    (∀ x, InBlock a x → ¬ InWhole b x) ∧ ∀ x, InBlock b x → ¬ InWhole a x

end Comus.User
