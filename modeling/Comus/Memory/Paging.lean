import Comus.Lib.BitField
import Comus.Lib.Trie
import Comus.Memory.PhysAlloc

/-!
# Page tables (kernel/memory/paging.c)

Physical memory is a table of 64-bit words, by frame and by index in the frame. A
page table is reached through a window of temporary mappings at 0x40000000, whose
own page table `paging_pt` is one of the frames: `mapAddr` rewrites an entry of
it, `load` and `store` go through the entry as it is at that moment. `none` is a
page fault of the kernel or a failed assertion. Null is address zero.
-/

namespace Comus.Paging

open Word BitField

def PAGE_SIZE : Nat := 4096

def F_PRESENT : Nat := 0x001
def F_WRITEABLE : Nat := 0x002
def F_UNPRIVILEGED : Nat := 0x004

abbrev Mem : Type := Nat → Nat → Nat

structure PageAlloc (P : Type) where
  allocPhysPage : P → Option (Nat × P)
  allocPhysPagesExact : P → Nat → Option (Nat × P)
  freePhysPage : P → Nat → P
  freePhysPages : P → Nat → Nat → P

def physPages : PageAlloc PhysAlloc.Phys where
  allocPhysPage := PhysAlloc.allocPhysPage
  allocPhysPagesExact := PhysAlloc.allocPhysPagesExact
  freePhysPage := PhysAlloc.freePhysPage
  freePhysPages := PhysAlloc.freePhysPages

/-- What the linker fixes: the ends of the kernel image, the address of `kernel_pml4`
and the frame of `paging_pt`. -/
structure KernelImage where
  kernelStart : Nat
  kernelEnd : Nat
  kernelPml4 : Nat
  pagingPt : Nat

/-- `freed` records the calls of `free_phys_page`, `strayed` whether a table was read
or written at an index past its end. -/
@[ext] structure Machine (P : Type) where
  mem : Mem
  phys : P
  freed : List Nat
  strayed : Bool

abbrev KernelM (P : Type) : Type → Type := StateT (Machine P) Option

/-! ## Entries

The three upper tables have six flag bits and keep their counter in the ignored
bits of entry 0. A page table has nine and keeps it in two pieces. -/

def present (e : Nat) : Bool := decide (field e 0 1 = 1)

def frameOf (e : Nat) : Nat := field e 12 40

def addressOf (e : Nat) : Nat := frameOf e * PAGE_SIZE

def setAddress (e p : Nat) : Nat := setField e 12 40 (p / PAGE_SIZE)

def tableFlags : Nat := 6
def pageFlags : Nat := 9

def setFlags (bits e flags : Nat) : Nat := setField e 0 bits flags

def executeDisable (e : Nat) : Nat := field e 63 1

/-- The counter of a table, in the word of its entry 0. -/
structure Counter where
  get : Nat → Nat
  set : Nat → Nat → Nat

def tableCount : Counter where
  get e := field e 54 9
  set e count := setField e 54 9 count

def ptCount : Counter where
  get e := field e 52 7 * 4 + field e 10 2
  set e count := setField (setField e 10 2 count) 52 7 (count / 4)

def child (m : Mem) (f i : Nat) : Option Nat :=
  if i < 512 ∧ present (m f i) = true then some (frameOf (m f i)) else none

def pathOf (v : Nat) : List Nat :=
  [v / 2^39 % 512, v / 2^30 % 512, v / 2^21 % 512, v / 2^12 % 512]

def translate (m : Mem) (root v : Nat) : Option Nat :=
  Trie.follow (child m) (root / PAGE_SIZE) (pathOf v)

/-- The physical address behind a virtual one. The four tables have no entries for the
addresses from `2 ^ 48` on. -/
def physAddr (m : Mem) (root a : Nat) : Option Nat :=
  if a < 2^48 then (translate m root a).map fun f => f * PAGE_SIZE + a % PAGE_SIZE else none

variable {P : Type} (K : KernelImage) (A : PageAlloc P)

def windowStart : Nat := 0x40000000

/-- The frame behind a page of the window. Pages past its page table are mapped by
the other tables of the kernel. -/
def windowFrame (m : Mem) (page : Nat) : Option Nat :=
  if page < 512 then
    if present (m K.pagingPt page) then some (frameOf (m K.pagingPt page)) else none
  else translate m K.kernelPml4 (windowStart + page * PAGE_SIZE)

/-- Writing the word that is there changes nothing. -/
def Machine.write (s : Machine P) (f i w : Nat) : Machine P :=
  if s.mem f i = w then s
  else { s with mem := fun f' i' => if f' = f ∧ i' = i then w else s.mem f' i' }

def load (page i : Nat) : KernelM P Nat := fun s =>
  (windowFrame K s.mem (page + i / 512)).map fun f =>
    (s.mem f (i % 512), { s with strayed := s.strayed || decide (512 ≤ i) })

def store (page i w : Nat) : KernelM P Unit := fun s =>
  (windowFrame K s.mem (page + i / 512)).map fun f =>
    ((), { s.write f (i % 512) w with strayed := s.strayed || decide (512 ≤ i) })

def zeroPage (page : Nat) : KernelM P Unit := fun s =>
  (windowFrame K s.mem page).map fun f =>
    ((), { s with mem := fun f' i => if f' = f then 0 else s.mem f' i })

def copyPage (dst src : Nat) : KernelM P Unit := fun s =>
  (windowFrame K s.mem dst).bind fun d =>
    (windowFrame K s.mem src).map fun f =>
      ((), { s with mem := fun f' i => if f' = d then s.mem f i else s.mem f' i })

/-- The result is the page of the window, not its address. -/
def mapAddr (pADDR ptIdx : Nat) : KernelM P Nat := fun s =>
  if ptIdx < 512 then
    let e := s.mem K.pagingPt ptIdx
    if pADDR / PAGE_SIZE = frameOf e then some (ptIdx, s)
    else
      some (ptIdx, s.write K.pagingPt ptIdx
        (setFlags pageFlags (setAddress e pADDR) (F_PRESENT ||| F_WRITEABLE)))
  else none

def PML4_MAP : Nat := 0
def PDPT_MAP : Nat := 1
def PD_MAP : Nat := 2
def PT_MAP : Nat := 3
def PML4_MAPC : Nat := 4
def PDPT_MAPC : Nat := 5
def PD_MAPC : Nat := 6
def PT_MAPC : Nat := 7
def PAGE_MAP : Nat := 8
def PAGE_MAPC : Nat := 9

def allocPhysPage : KernelM P Nat := fun s =>
  (A.allocPhysPage s.phys).map fun (p, phys) => (p, { s with phys := phys })

def freePhysPage (p : Nat) : KernelM P Unit := fun s =>
  some ((), { s with phys := A.freePhysPage s.phys p, freed := s.freed ++ [p] })

def tableLocate (slot p offset : Nat) : KernelM P Nat := do
  let table ← mapAddr K p slot
  let e ← load K table offset
  pure (if present e then addressOf e else 0)

/-- The index of the first table is not masked. -/
def pdptLocate (pPML4 vADDR : Nat) : KernelM P Nat := tableLocate K PML4_MAP pPML4 (vADDR / 2^39)

def pdLocate (pPDPT vADDR : Nat) : KernelM P Nat :=
  tableLocate K PDPT_MAP pPDPT (vADDR / 2^30 % 512)

def ptLocate (pPD vADDR : Nat) : KernelM P Nat := tableLocate K PD_MAP pPD (vADDR / 2^21 % 512)

def pml4Alloc : KernelM P Nat := do
  let pPML4 ← allocPhysPage A
  if pPML4 = 0 then pure 0
  else
    let vPML4 ← mapAddr K pPML4 PML4_MAP
    zeroPage K vPML4
    pure pPML4

/-- The table below entry `offset`; a new one is mapped at `below` to be cleared. -/
def tableAlloc (slot below p offset flags : Nat) : KernelM P Nat := do
  let table ← mapAddr K p slot
  let located ← tableLocate K slot p offset
  if located ≠ 0 then
    let e ← load K table offset
    store K table offset (setFlags tableFlags e (field e 0 tableFlags ||| flags))
    pure located
  else
    let child ← allocPhysPage A
    if child = 0 then pure 0
    else
      let page ← mapAddr K child below
      zeroPage K page
      let e ← load K table offset
      store K table offset (setFlags tableFlags (setAddress e child) (F_PRESENT ||| flags))
      let e ← load K table 0
      store K table 0 (tableCount.set e (tableCount.get e + 1))
      pure child

def pdptAlloc (pPML4 vADDR flags : Nat) : KernelM P Nat :=
  tableAlloc K A PML4_MAP PDPT_MAP pPML4 (vADDR / 2^39) flags

def pdAlloc (pPDPT vADDR flags : Nat) : KernelM P Nat :=
  tableAlloc K A PDPT_MAP PD_MAP pPDPT (vADDR / 2^30 % 512) flags

def ptAlloc (pPD vADDR flags : Nat) : KernelM P Nat :=
  tableAlloc K A PD_MAP PT_MAP pPD (vADDR / 2^21 % 512) flags

/-- The loop over the entries `i, ..., i + n - 1` of the table mapped at `page`. -/
def freeEntries (below : Nat → KernelM P Unit) (page : Nat) : Nat → Nat → Nat → KernelM P Nat
  | 0, _, count => pure count
  | n + 1, i, count => do
    let e ← load K page i
    if present e then
      below (addressOf e)
      freeEntries below page n (i + 1) (sub64 count 1)
    else freeEntries below page n (i + 1) count

/-- A table whose counter is zero is released without a look at its entries. -/
def tableFree (slot : Nat) (counter : Counter) (below : Nat → KernelM P Unit) (p : Nat)
    (force : Bool) : KernelM P Unit := do
  let table ← mapAddr K p slot
  let e ← load K table 0
  if counter.get e = 0 then freePhysPage A p
  else
    let count ← freeEntries K below table 512 0 (counter.get e)
    if !force && decide (count ≠ 0) then
      let e ← load K table 0
      store K table 0 (counter.set e count)
    else freePhysPage A p

def ptFree (pPT : Nat) (force : Bool) : KernelM P Unit :=
  tableFree K A PT_MAP ptCount (freePhysPage A) pPT force

def pdFree (pPD : Nat) (force : Bool) : KernelM P Unit :=
  tableFree K A PD_MAP tableCount (fun pPT => ptFree K A pPT force) pPD force

def pdptFree (pPDPT : Nat) (force : Bool) : KernelM P Unit :=
  tableFree K A PDPT_MAP tableCount (fun pPD => pdFree K A pPD force) pPDPT force

def pml4Free (pPML4 : Nat) (force : Bool) : KernelM P Unit :=
  tableFree K A PML4_MAP tableCount (fun pPDPT => pdptFree K A pPDPT force) pPML4 force

def pageClone (oldADDR : Nat) : KernelM P Nat :=
  if oldADDR ≤ K.kernelEnd then pure oldADDR
  else do
    let newADDR ← allocPhysPage A
    if newADDR = 0 then pure 0
    else
      let old ← mapAddr K oldADDR PAGE_MAPC
      let new ← mapAddr K newADDR PAGE_MAP
      copyPage K new old
      pure newADDR

/-- The loop over the entries `i, ..., i + n - 1`; `false` is the jump to `fail`. -/
def cloneEntries (bits : Nat) (below : Nat → KernelM P Nat) (old new : Nat) :
    Nat → Nat → KernelM P Bool
  | 0, _ => pure true
  | n + 1, i => do
    let e ← load K old i
    let e' ← load K new i
    store K new i (setFlags bits (setField e' 63 1 (executeDisable e)) (field e 0 bits))
    if present e then
      let child ← below (addressOf e)
      if child = 0 then pure false
      else
        let e' ← load K new i
        store K new i (setAddress e' child)
        cloneEntries bits below old new n (i + 1)
    else cloneEntries bits below old new n (i + 1)

/-- Both tables are mapped and the new one is cleared. -/
def cloneTable (bits : Nat) (counter : Counter) (below : Nat → KernelM P Nat)
    (fail : Nat → KernelM P Unit) (old new newADDR : Nat) : KernelM P Nat := do
  let e ← load K old 0
  let e' ← load K new 0
  store K new 0 (counter.set e' (counter.get e))
  if ← cloneEntries K bits below old new 512 0 then pure newADDR
  else
    fail newADDR
    pure 0

def tableClone (slot slotC bits : Nat) (counter : Counter) (below : Nat → KernelM P Nat)
    (fail : Nat → KernelM P Unit) (oldADDR : Nat) : KernelM P Nat := do
  let newADDR ← allocPhysPage A
  if newADDR = 0 then pure 0
  else
    let old ← mapAddr K oldADDR slotC
    let new ← mapAddr K newADDR slot
    zeroPage K new
    cloneTable K bits counter below fail old new newADDR

def ptClone : Nat → KernelM P Nat :=
  tableClone K A PT_MAP PT_MAPC pageFlags ptCount (pageClone K A) fun p => ptFree K A p true

def pdClone : Nat → KernelM P Nat :=
  tableClone K A PD_MAP PD_MAPC tableFlags tableCount (ptClone K A) fun p => pdFree K A p true

def pdptClone : Nat → KernelM P Nat :=
  tableClone K A PDPT_MAP PDPT_MAPC tableFlags tableCount (pdClone K A) fun p => pdptFree K A p true

def pml4Clone (oldADDR : Nat) : KernelM P Nat := do
  let newADDR ← pml4Alloc K A
  if newADDR = 0 then pure 0
  else
    let old ← mapAddr K oldADDR PML4_MAPC
    let new ← mapAddr K newADDR PML4_MAP
    cloneTable K tableFlags tableCount (pdptClone K A) (fun p => pml4Free K A p true) old new newADDR

/-- The index of the entry in the page table that is then mapped at `PT_MAP`. -/
def pageLocate (pPML4 vADDR : Nat) : KernelM P (Option Nat) := do
  let pPDPT ← pdptLocate K pPML4 vADDR
  if pPDPT = 0 then pure none
  else
    let pPD ← pdLocate K pPDPT vADDR
    if pPD = 0 then pure none
    else
      let pPT ← ptLocate K pPD vADDR
      if pPT = 0 then pure none
      else
        let offset := vADDR / 2^12 % 512
        let vPT ← mapAddr K pPT PT_MAP
        let e ← load K vPT offset
        pure (if present e then some offset else none)

/-- The entry is cleared before the counter is read, which may be in the same word. -/
def pageAlloc (pPML4 vADDR flags : Nat) : KernelM P (Option Nat) := do
  let pPDPT ← pdptAlloc K A pPML4 vADDR flags
  if pPDPT = 0 then pure none
  else
    let pPD ← pdAlloc K A pPDPT vADDR flags
    if pPD = 0 then pure none
    else
      let pPT ← ptAlloc K A pPD vADDR flags
      if pPT = 0 then pure none
      else
        let offset := vADDR / 2^12 % 512
        let vPT ← mapAddr K pPT PT_MAP
        store K vPT offset 0
        let e ← load K vPT 0
        store K vPT 0 (ptCount.set e (ptCount.get e + 1))
        pure (some offset)

/-- The address to release is read after the entry is cleared. -/
def pageFree (pPML4 vADDR : Nat) (deallocate : Bool) : KernelM P Unit := do
  match ← pageLocate K pPML4 vADDR with
  | none => pure ()
  | some offset =>
    let e ← load K PT_MAP offset
    store K PT_MAP offset (setAddress (setFlags pageFlags e 0) 0)
    if deallocate then
      let e ← load K PT_MAP offset
      freePhysPage A (addressOf e)
    else pure ()

def unmapPages (pPML4 : Nat) (deallocate : Bool) : Nat → Nat → KernelM P Unit
  | 0, _ => pure ()
  | n + 1, vADDR => do
    pageFree K A pPML4 vADDR deallocate
    unmapPages pPML4 deallocate n (u64 (vADDR + PAGE_SIZE))

def mapPage (pPML4 vADDR pADDR flags : Nat) : KernelM P Bool := do
  match ← pageAlloc K A pPML4 vADDR flags with
  | none => pure false
  | some offset =>
    let e ← load K PT_MAP offset
    store K PT_MAP offset (setFlags pageFlags (setAddress e pADDR) (F_PRESENT ||| flags))
    pure true

/-- `total` is the page count of the call: as many pages are unmapped from the page
that could not be mapped on. -/
def mapPagesLoop (pPML4 flags total : Nat) : Nat → Nat → Nat → KernelM P Nat
  | 0, _, _ => pure 0
  | n + 1, vADDR, pADDR => do
    if ← mapPage K A pPML4 vADDR pADDR flags then
      mapPagesLoop pPML4 flags total n (u64 (vADDR + PAGE_SIZE)) (u64 (pADDR + PAGE_SIZE))
    else
      unmapPages K A pPML4 true total vADDR
      pure 1

def mapPages (pPML4 vADDR pADDR flags : Nat) (pageCount : Int) : KernelM P Nat :=
  mapPagesLoop K A pPML4 flags pageCount.toNat pageCount.toNat vADDR pADDR

def pgdirAlloc : KernelM P Nat := do
  let pPML4 ← pml4Alloc K A
  if pPML4 = 0 then pure 0
  else
    let failed ← mapPages K A pPML4 K.kernelStart K.kernelStart (F_PRESENT ||| F_WRITEABLE)
      (((K.kernelEnd : Int) - K.kernelStart).tdiv PAGE_SIZE)
    if failed ≠ 0 then
      pml4Free K A pPML4 false
      pure 0
    else pure pPML4

def pgdirClone (old : Nat) : KernelM P Nat := pml4Clone K A old

def pgdirFree (addr : Nat) : KernelM P Unit := pml4Free K A addr true

end Comus.Paging
