import Mathlib.Logic.Function.Basic
import Comus.Lib.Word

/-!
# The physical page allocator (kernel/memory/physalloc.c)

The bitmap and the segment table live in one kernel memory of 64-bit words, as
they do in the source: the table is placed behind the bitmap, so an index past
the end of the bitmap area reads and writes whatever is mapped there. A null
pointer is address zero. `none` is a failed assertion.
-/

namespace Comus.PhysAlloc

open Word Function

def PAGE_SIZE : Nat := 4096

inductive SegType where
  | free | reserved | acpi | hibernation | defective | efi
  deriving Repr, DecidableEq

structure Segment where
  addr : Nat
  len : Nat
  type : SegType
  deriving Repr, DecidableEq

/-- The allocator's static variables and the kernel memory its two pointers reach. -/
structure Phys where
  mem : Nat → BitVec 64
  bitmap : Nat
  pageStart : Nat
  memoryStart : Nat
  totalMemory : Nat
  freeMemory : Nat
  pageCount : Nat
  segmentCount : Nat

/-- Size of `struct memory_segment`: two 64-bit words and a padded 32-bit type. -/
def segSize : Nat := 24

def segAddr (mem : Nat → BitVec 64) (m : Nat) : Nat := (mem m).toNat

def segLen (mem : Nat → BitVec 64) (m : Nat) : Nat := (mem (m + 8)).toNat

def nPages (len : Nat) : Int := toI32 (u64 (len + PAGE_SIZE - 1) / PAGE_SIZE : Nat)

def pageAtLoop (mem : Nat → BitVec 64) (i : Nat) : Nat → Nat → Nat → Nat
  | 0, _, _ => 0
  | k + 1, m, curPage =>
    let pages := toU64 (nPages (segLen mem m))
    if sub64 i curPage < pages then u64 (segAddr mem m + PAGE_SIZE * sub64 i curPage)
    else pageAtLoop mem i k (m + segSize) (u64 (curPage + pages))

def pageAt (s : Phys) (i : Nat) : Nat := pageAtLoop s.mem i s.segmentCount s.pageStart 0

/-- The upper bound of a segment is taken from the address of the table entry,
not from the address stored in it. -/
def pageIdxLoop (mem : Nat → BitVec 64) (addr : Nat) : Nat → Nat → Int → Int
  | 0, _, _ => -1
  | k + 1, m, curPage =>
    if addr < segAddr mem m then -1
    else if u64 (m + segLen mem m) > addr then
      toI64 (curPage + ((addr - segAddr mem m) / PAGE_SIZE : Nat))
    else pageIdxLoop mem addr k (m + segSize) (toI32 (curPage + nPages (segLen mem m)))

def pageIdx (s : Phys) (page : Nat) : Int := pageIdxLoop s.mem page s.segmentCount s.pageStart 0

def wordAt (s : Phys) (i : Nat) : Nat := s.bitmap + 8 * (i / 64)

def bitmapGet (s : Phys) (i : Nat) : Bool :=
  ((s.mem (wordAt s i) >>> (i % 64)) &&& 1#64) == 1#64

/-- `~(1 << (i % 64))`: the literal is an `int`, the machine shifts modulo 32 and
the complement is sign extended to 64 bits. -/
def clearMask (i : Nat) : BitVec 64 := (~~~(1#32 <<< (i % 64 % 32))).signExtend 64

/-- `v << (i % 64)`, with the same promotion of `v` to `int`. -/
def setMask (v : Bool) (i : Nat) : BitVec 64 :=
  ((if v then 1#32 else 0#32) <<< (i % 64 % 32)).signExtend 64

def bitmapSet (s : Phys) (i : Nat) (v : Bool) : Phys :=
  { s with
    freeMemory := if v then sub64 s.freeMemory PAGE_SIZE else u64 (s.freeMemory + PAGE_SIZE)
    mem := update s.mem (wordAt s i)
      ((s.mem (wordAt s i) &&& clearMask i) ||| setMask v i) }

def bitmapSetRun (s : Phys) (start : Nat) (v : Bool) : Nat → Phys
  | 0 => s
  | n + 1 => bitmapSet (bitmapSetRun s start v n) (u64 (start + n)) v

/-- The search loop of `alloc_phys_pages_exact`: the first index of the chosen
run and its address. `nContiguous` pages in front of `i` are free, from `start` on. -/
def scan (free : Nat → Bool) (pageAt : Nat → Nat) (pages : Nat) :
    Nat → Nat → Nat → Nat → Option (Nat × Nat)
  | 0, _, _, _ => none
  | k + 1, i, nContiguous, start =>
    if free i then
      let start := if nContiguous = 0 then i else start
      if nContiguous + 1 = pages then
        if pageAt start = 0 then scan free pageAt pages k (i + 1) 0 start
        else some (start, pageAt start)
      else scan free pageAt pages k (i + 1) (nContiguous + 1) start
    else scan free pageAt pages k (i + 1) 0 start

def firstFit (s : Phys) (pages : Nat) : Option (Nat × Nat) :=
  scan (fun i => !bitmapGet s i) (pageAt s) pages s.pageCount 0 0 0

def allocPhysPagesExact (s : Phys) (pages : Nat) : Option (Nat × Phys) :=
  if pages < 1 then some (0, s)
  else if s.bitmap = 0 ∨ s.pageStart = 0 then
    -- temporary bump allocator
    if pages = 1 then
      some (s.memoryStart, { s with memoryStart := u64 (s.memoryStart + PAGE_SIZE) })
    else none
  else match firstFit s pages with
    | some (start, addr) => some (addr, bitmapSetRun s start true pages)
    | none => some (0, s)

def allocPhysPage (s : Phys) : Option (Nat × Phys) := allocPhysPagesExact s 1

def freePhysPages (s : Phys) (ptr pages : Nat) : Phys :=
  if ptr = 0 then s
  else if pageIdx s ptr = -1 then s
  else bitmapSetRun s (toU64 (pageIdx s ptr)) false pages

def freePhysPage (s : Phys) (ptr : Nat) : Phys := freePhysPages s ptr 1

def memoryFree (s : Phys) : Nat := s.freeMemory

/-- What `physalloc_init` reads besides the memory map: the linker symbols, the end
of the boot information, the kernel addresses its two `kmapaddr` calls return, and
the number of page-table pages these take from the bump allocator meanwhile. -/
structure Boot where
  kernelStart : Nat
  kernelEnd : Nat
  mbootEnd : Nat
  bitmapVirt : Nat
  areaVirt : Nat
  tablePages : Nat

def kernelRealEnd (b : Boot) : Nat :=
  if b.mbootEnd < b.kernelEnd then b.kernelEnd else b.mbootEnd

def segmentInvalid (b : Boot) (memoryStart : Nat) (seg : Segment) : Bool :=
  decide (seg.len < 1) || decide (seg.type ≠ .free) || decide (seg.addr < b.kernelStart) ||
  decide (u64 (seg.addr + seg.len) < memoryStart) ||
  decide (u64 (seg.addr + seg.len) < b.kernelStart)

/-- The length is reduced in 64 bits: it wraps when the segment ends below `start`. -/
def clampSegment (b : Boot) (memoryStart : Nat) (seg : Segment) : Nat × Nat :=
  let start := if memoryStart ≠ 0 then memoryStart else kernelRealEnd b
  if seg.addr < start then (start, sub64 seg.len (start - seg.addr))
  else (seg.addr, seg.len)

def countPass (b : Boot) : List Segment → Nat → Nat → Nat × Nat
  | [], pageCount, segmentCount => (pageCount, segmentCount)
  | seg :: map, pageCount, segmentCount =>
    if segmentInvalid b 0 seg then countPass b map pageCount segmentCount
    else countPass b map (toU64 (pageCount + nPages (clampSegment b 0 seg).2)) (segmentCount + 1)

def writePass (b : Boot) (memoryStart : Nat) :
    List Segment → Nat → (Nat → BitVec 64) → (Nat → BitVec 64)
  | [], _, mem => mem
  | seg :: map, area, mem =>
    if segmentInvalid b memoryStart seg then writePass b memoryStart map area mem
    else
      let temp := clampSegment b memoryStart seg
      writePass b memoryStart map (area + segSize)
        (update (update mem area (BitVec.ofNat 64 temp.1))
          (area + 8) (BitVec.ofNat 64 temp.2))

def zeroArea (mem : Nat → BitVec 64) (area len : Nat) : Nat → BitVec 64 :=
  fun a => if area ≤ a ∧ a < area + len then 0#64 else mem a

def bitmapPages (pageCount : Nat) : Nat := pageCount / 64 / PAGE_SIZE + 1

def bitmapSize (pageCount : Nat) : Nat := bitmapPages pageCount * PAGE_SIZE

/-- Physical address of the segment table: behind the bitmap, which starts at the
page behind everything the boot loader has loaded. -/
def pageAreaAddr (b : Boot) (pageCount : Nat) : Nat :=
  alignUp PAGE_SIZE (u64 (alignUp PAGE_SIZE (kernelRealEnd b) + bitmapSize pageCount))

/-- The bump pointer once both areas are mapped; the second pass clamps to it. -/
def bootMemoryStart (b : Boot) (pageCount segmentCount : Nat) : Nat :=
  u64 (alignUp PAGE_SIZE (u64 (pageAreaAddr b pageCount + segmentCount * segSize)) +
    PAGE_SIZE * b.tablePages)

def physallocInit (b : Boot) (map : List Segment) (mem : Nat → BitVec 64) : Phys :=
  let pageCount := (countPass b map 0 0).1
  let segmentCount := (countPass b map 0 0).2
  let memoryStart := bootMemoryStart b pageCount segmentCount
  let cleared := zeroArea (zeroArea mem b.bitmapVirt (bitmapSize pageCount))
    b.areaVirt (segmentCount * segSize)
  { mem := writePass b memoryStart map b.areaVirt cleared
    bitmap := b.bitmapVirt
    pageStart := b.areaVirt
    memoryStart := memoryStart
    totalMemory := u64 (pageCount * PAGE_SIZE)
    freeMemory := u64 (sub64 pageCount (bitmapPages pageCount) * PAGE_SIZE)
    pageCount := sub64 pageCount (bitmapPages pageCount)
    segmentCount := segmentCount }

end Comus.PhysAlloc
