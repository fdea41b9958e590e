import Comus.Lib.Run
import Comus.Memory.PhysSegments

/-!
# Runs of the physical allocator

A run keeps, beside the allocator, the blocks handed out and not yet given back.
The invariant is stated on page indices: every outstanding index is marked, and
the upper half of a bitmap word belongs to at most one block. It survives every
step that stays clear of the narrow masks, the wrong bound of `page_idx` and the
end of the bitmap.
-/

namespace Comus.PhysAlloc

open Word Option List

variable {s : Phys} {i j capacity total start n pages addr : Nat} {bs cs : List (Nat × Nat)}
  {r r' : RunState}

inductive Op where
  | alloc (pages : Nat)
  | free (ptr pages : Nat)
  deriving Repr, DecidableEq

structure RunState where
  phys : Phys
  out : List (Nat × Nat)

/-- One call. `alloc_phys_page` is `alloc 1`; a free names an outstanding block. -/
def step (r : RunState) : Op → Option RunState
  | .alloc pages =>
    match allocPhysPagesExact r.phys pages with
    | none => none
    | some (addr, s) => some ⟨s, if addr = 0 then r.out else (addr, pages) :: r.out⟩
  | .free ptr pages =>
    if (ptr, pages) ∈ r.out then
      some ⟨freePhysPages r.phys ptr pages, r.out.erase (ptr, pages)⟩
    else none

def Touches (block : Nat × Nat) (f : Nat) : Prop :=
  4096 * f < block.1 + 4096 * block.2 ∧ block.1 < 4096 * f + 4096

def Separate (out : List (Nat × Nat)) : Prop :=
  out.Pairwise fun x y => ∀ f, ¬ (Touches x f ∧ Touches y f)

def pagesOut (out : List (Nat × Nat)) : Nat := (out.map Prod.snd).sum

def Accounted (s : Phys) (r : RunState) : Prop :=
  Separate r.out ∧ memoryFree r.phys + 4096 * pagesOut r.out = memoryFree s

def Usable (b : Boot) (seg : Segment) : Prop :=
  seg.type = .free ∧ 0 < seg.len ∧ b.kernelStart ≤ seg.addr

/-- Usable entries are page aligned, in address order without overlap, below the
physical address limit, shorter than `2^31` pages, and none ends inside the
loaded image; the map leaves at least one page. -/
structure OrderedMap (b : Boot) (map : List Segment) : Prop where
  count : map.length ≤ 256
  aligned : ∀ seg ∈ map, Usable b seg → seg.addr % 4096 = 0
  bound : ∀ seg ∈ map, Usable b seg → seg.addr + seg.len ≤ 2^52
  short : ∀ seg ∈ map, Usable b seg → Short seg.len
  clear : ∀ seg ∈ map, Usable b seg → kernelRealEnd b ≤ seg.addr + seg.len
  ordered : map.Pairwise fun x y => Usable b x → Usable b y → x.addr + x.len ≤ y.addr
  nonempty : ∃ seg ∈ map, Usable b seg ∧ kernelRealEnd b < seg.addr + seg.len

def countedPages (b : Boot) (map : List Segment) : Nat := (countPass b map 0 0).1

def countedSegments (b : Boot) (map : List Segment) : Nat := (countPass b map 0 0).2

/-- `kmapaddr` returned two areas that do not overlap, below `2^64`. -/
structure BootOk (b : Boot) (map : List Segment) : Prop where
  kernel : kernelRealEnd b < 2^52
  tables : b.tablePages < 2^40
  bitmap : b.bitmapVirt ≠ 0
  area : b.areaVirt ≠ 0
  apart : b.bitmapVirt + bitmapSize (countedPages b map) ≤ b.areaVirt ∨
    b.areaVirt + countedSegments b map * segSize ≤ b.bitmapVirt

def bitmapCapacity (b : Boot) (map : List Segment) : Nat := 8 * bitmapSize (countedPages b map)

def Window (s : Phys) (pages start : Nat) : Prop :=
  start + pages ≤ s.pageCount ∧ pageAt s start ≠ 0 ∧
    ∀ t, start ≤ t → t < start + pages → bitmapGet s t = false

/-- The calls that stay clear of the defects, decided on the state before the call.
An allocation that any free pages fit must find some inside the bitmap. For a free, `page_idx` must
find the page again, and a page of the block with index `i` and `32 ≤ i % 64 ≤ 62`
must not have the page with index `i - 32` in another outstanding block. -/
def Sound (capacity : Nat) (r : RunState) : Op → Prop
  | .alloc pages => (∃ start, Window r.phys pages start) →
      ∃ start, start + pages ≤ capacity ∧ Window r.phys pages start
  | .free ptr pages => ∃ idx : Nat, pageIdx r.phys ptr = idx ∧ pageAt r.phys idx = ptr ∧
      ∀ i, idx ≤ i → i < idx + pages → 32 ≤ i % 64 → i % 64 ≤ 62 → i - 32 < idx →
        ∀ t n, (pageAt r.phys t, n) ∈ r.out.erase (ptr, pages) → ¬ (t ≤ i - 32 ∧ i - 32 < t + n)

def InBlock (b : Nat × Nat) (i : Nat) : Prop := b.1 ≤ i ∧ i < b.1 + b.2

structure TableOk (s : Phys) : Prop where
  count : s.pageCount < 2^39
  ok : ∀ x ∈ readTable s.mem s.segmentCount s.pageStart, SegOk x
  aligned : ∀ x ∈ readTable s.mem s.segmentCount s.pageStart, x.1 % 4096 = 0
  pos : ∀ x ∈ readTable s.mem s.segmentCount s.pageStart, 0 < pagesOf x.2 → 0 < x.1
  ascending : Ascending (readTable s.mem s.segmentCount s.pageStart)

theorem TableOk.pageAt_eq (h : TableOk s) (hi : i < 2^64) :
    pageAt s i = pageAtList i (readTable s.mem s.segmentCount s.pageStart) 0 :=
  pageAtLoop_eq_list s.mem i s.segmentCount s.pageStart 0 hi (Nat.zero_le i) h.ok

theorem TableOk.spaced (h : TableOk s) (hij : i ≤ j) (hj : j < 2^64) (hne : pageAt s j ≠ 0) :
    pageAt s i ≠ 0 ∧ pageAt s i + 4096 * (j - i) ≤ pageAt s j := by
  rw [h.pageAt_eq hj] at hne ⊢
  rw [h.pageAt_eq (by omega : i < 2^64)]
  exact pageAtList_spaced h.ascending h.pos (Nat.zero_le i) hij hne

theorem TableOk.pageAt_aligned (h : TableOk s) (hi : i < 2^64) :
    pageAt s i % 4096 = 0 := by
  rw [h.pageAt_eq hi]
  exact pageAtList_aligned h.aligned i 0

theorem TableOk.injective (h : TableOk s) (hi : i < 2^64) (hj : j < 2^64)
    (hne : pageAt s i ≠ 0) (heq : pageAt s i = pageAt s j) : i = j := by
  by_contra hij
  rcases Nat.lt_or_gt_of_ne hij with hlt | hgt
  · have := (h.spaced (Nat.le_of_lt hlt) hj (heq ▸ hne)).2
    omega
  · have := (h.spaced (Nat.le_of_lt hgt) hi hne).2
    omega

def AreasApart (capacity : Nat) (s : Phys) : Prop :=
  ∀ a i, s.pageStart ≤ a → a < s.pageStart + segSize * s.segmentCount → i < capacity →
    a ≠ s.bitmap + 8 * (i / 64)

/-- `bs` are the outstanding blocks as index ranges; `total` is the free memory at the start. -/
structure Inv (capacity total : Nat) (s : Phys) (bs : List (Nat × Nat)) : Prop where
  bitmap : s.bitmap ≠ 0
  pageStart : s.pageStart ≠ 0
  areas : AreasApart capacity s
  table : TableOk s
  total_eq : total = 4096 * s.pageCount
  uniform : ∀ w, 64 * w < capacity → Uniform s w
  inside : ∀ b ∈ bs, 0 < b.2 ∧ b.1 + b.2 ≤ s.pageCount ∧ b.1 + b.2 ≤ capacity ∧ pageAt s b.1 ≠ 0
  marked : ∀ b ∈ bs, ∀ i, InBlock b i → bitmapGet s i = true
  apart : bs.Pairwise fun x y => ∀ i, ¬ (InBlock x i ∧ InBlock y i)
  upper : bs.Pairwise fun x y => ∀ i j, InBlock x i → InBlock y j → i / 64 = j / 64 →
    ¬ (31 ≤ i % 64 ∧ 31 ≤ j % 64)
  counter : s.freeMemory + 4096 * pagesOut bs = total

theorem Inv.perm (h : Inv capacity total s bs) (hp : bs.Perm cs) : Inv capacity total s cs where
  bitmap := h.bitmap
  pageStart := h.pageStart
  areas := h.areas
  table := h.table
  total_eq := h.total_eq
  uniform := h.uniform
  inside := fun b hb => h.inside b (hp.mem_iff.mpr hb)
  marked := fun b hb => h.marked b (hp.mem_iff.mpr hb)
  apart := by
    refine (hp.pairwise_iff ?_).mp h.apart
    intro x y hxy i hi
    exact hxy i ⟨hi.2, hi.1⟩
  upper := by
    refine (hp.pairwise_iff ?_).mp h.upper
    intro x y hxy i j hi hj heq hlow
    exact hxy j i hj hi heq.symm ⟨hlow.2, hlow.1⟩
  counter := by
    have hsum : pagesOut bs = pagesOut cs := (hp.map Prod.snd).sum_eq
    rw [← hsum]
    exact h.counter

theorem pagesOut_le {N : Nat} (hapart : bs.Pairwise fun x y => ∀ i, ¬ (InBlock x i ∧ InBlock y i))
    (hin : ∀ b ∈ bs, b.1 + b.2 ≤ N) : pagesOut bs ≤ N := by
  let indices := bs.flatMap fun b => range' b.1 b.2
  have hlen : indices.length = pagesOut bs := by
    simp [indices, pagesOut, length_flatMap]
  have hnodup : indices.Nodup := by
    refine nodup_flatMap.mpr ⟨fun b _ => nodup_range', ?_⟩
    refine hapart.imp ?_
    intro x y hxy i hx hy
    rw [mem_range'_1] at hx hy
    exact hxy i ⟨hx, hy⟩
  have hsub : indices ⊆ range N := by
    intro i hi
    obtain ⟨b, hb, hib⟩ := mem_flatMap.mp hi
    rw [mem_range'_1] at hib
    have := hin b hb
    exact mem_range.mpr (by omega)
  have hle := (hnodup.subperm hsub).length_le
  rwa [hlen, length_range] at hle

theorem AreasApart.readTable_eq (h : AreasApart capacity s)
    (hn : start + n ≤ capacity) (hcap : capacity ≤ 2^64) (v : Bool) :
    readTable (bitmapSetRun s start v n).mem (bitmapSetRun s start v n).segmentCount
      (bitmapSetRun s start v n).pageStart = readTable s.mem s.segmentCount s.pageStart := by
  obtain ⟨-, hps, -, hsc⟩ := bitmapSetRun_fields s start v n
  rw [hps, hsc]
  refine readTable_congr _ _ fun a hlo hhi => ?_
  refine bitmapSetRun_mem s start v n a (by omega) fun t ht => ?_
  exact h a (start + t) hlo hhi (by omega)

theorem TableOk.congr {s' : Phys} (h : TableOk s) (hc : s'.pageCount = s.pageCount)
    (ht : readTable s'.mem s'.segmentCount s'.pageStart =
      readTable s.mem s.segmentCount s.pageStart) : TableOk s' where
  count := hc ▸ h.count
  ok := ht ▸ h.ok
  aligned := ht ▸ h.aligned
  pos := ht ▸ h.pos
  ascending := ht ▸ h.ascending

section Inv

variable (h : Inv capacity total s bs) (hcap : capacity ≤ 2^64) (v : Bool) (hn : start + n ≤ capacity)
include h hcap v hn

theorem Inv.pageAt_write (hi : i < 2^64) :
    pageAt (bitmapSetRun s start v n) i = pageAt s i := by
  have hread := h.areas.readTable_eq hn hcap v
  have htable := h.table.congr (bitmapSetRun_fields s start v n).2.2.1 hread
  rw [h.table.pageAt_eq hi, htable.pageAt_eq hi, hread]

theorem Inv.of_write (hin : ∀ b ∈ cs, 0 < b.2 ∧ b.1 + b.2 ≤ s.pageCount ∧ b.1 + b.2 ≤ capacity ∧ pageAt s b.1 ≠ 0)
    (hmark : ∀ b ∈ cs, ∀ i, InBlock b i → bitmapGet (bitmapSetRun s start v n) i = true)
    (hapart : cs.Pairwise fun x y => ∀ i, ¬ (InBlock x i ∧ InBlock y i))
    (hupper : cs.Pairwise fun x y => ∀ i j, InBlock x i → InBlock y j → i / 64 = j / 64 →
      ¬ (31 ≤ i % 64 ∧ 31 ≤ j % 64))
    (hcount : (bitmapSetRun s start v n).freeMemory + 4096 * pagesOut cs = total) :
    Inv capacity total (bitmapSetRun s start v n) cs := by
  obtain ⟨hbm, hps, hpc, hsc⟩ := bitmapSetRun_fields s start v n
  have hread := h.areas.readTable_eq hn hcap v
  have htable := h.table.congr hpc hread
  refine ⟨hbm ▸ h.bitmap, hps ▸ h.pageStart, ?_, htable, hpc ▸ h.total_eq, ?_, ?_, hmark, hapart,
    hupper, hcount⟩
  · intro a i hlo hhi hi
    rw [hps] at hlo hhi
    rw [hsc] at hhi
    rw [hbm]
    exact h.areas a i hlo hhi hi
  · exact fun w hw => bitmapSetRun_uniform (h.uniform w hw) start v n
  · intro b hb
    obtain ⟨hpos, hcnt, hle, hne⟩ := hin b hb
    have := h.table.count
    rw [hpc, h.pageAt_write hcap v hn (by omega)]
    exact ⟨hpos, hcnt, hle, hne⟩

end Inv

theorem firstFit_least (hnull : ∀ t u, t ≤ u → u < s.pageCount → pageAt s u ≠ 0 → pageAt s t ≠ 0) (hp : 0 < pages)
    (hfit : firstFit s pages = some (start, addr)) :
    addr = pageAt s start ∧ addr ≠ 0 ∧ start + pages ≤ s.pageCount ∧
      (∀ t, InBlock (start, pages) t → bitmapGet s t = false) ∧
      ∀ s', s' < start → ∃ t, InBlock (s', pages) t ∧ bitmapGet s t = true := by
  have hleast := scan_least (ScanInv.zero (fun i => !bitmapGet s i) hp 0) (by
    intro t u htu hu hne
    exact hnull t u htu (by omega) hne) hfit
  obtain ⟨haddr, hne, hle, hfree, hmin⟩ := hleast
  refine ⟨haddr, hne, by omega, ?_, ?_⟩
  · intro t ht
    simpa using hfree t ht.1 ht.2
  · intro s' hs'
    obtain ⟨t, h1, h2, h3⟩ := hmin s' hs'
    exact ⟨t, ⟨h1, h2⟩, by simpa using h3⟩

section Inv

variable (h : Inv capacity total s bs) (hp : 0 < pages) (hfit : firstFit s pages = some (start, addr))
include h hp hfit

theorem Inv.firstFit_spec :
    addr = pageAt s start ∧ addr ≠ 0 ∧ start + pages ≤ s.pageCount ∧
      (∀ t, InBlock (start, pages) t → bitmapGet s t = false) ∧
      ∀ s', s' < start → ∃ t, InBlock (s', pages) t ∧ bitmapGet s t = true := by
  have hcount := h.table.count
  refine firstFit_least (fun t u htu hu hne => ?_) hp hfit
  exact (h.table.spaced htu (by omega) hne).1

theorem Inv.fit_inside (hroom : (∃ w, Window s pages w) → ∃ w, w + pages ≤ capacity ∧ Window s pages w) :
    start + pages ≤ capacity := by
  obtain ⟨haddr, hne, hcnt, hfree, hmin⟩ := h.firstFit_spec hp hfit
  obtain ⟨w, hw, -, -, hclear⟩ := hroom ⟨start, hcnt, haddr ▸ hne, fun t h1 h2 => hfree t ⟨h1, h2⟩⟩
  by_contra hover
  obtain ⟨t, ⟨hlo, hhi⟩, hset⟩ := hmin w (by omega)
  exact absurd (hclear t hlo hhi) (by simp [hset])

end Inv

/-- The lowest free window never starts in the upper half of a word: those bits are
all clear together, so the window one page lower would be free as well. -/
theorem start_low (huniform : Uniform s (start / 64))
    (hp : 0 < pages) (hfree : ∀ t, InBlock (start, pages) t → bitmapGet s t = false)
    (hmin : ∀ s', s' < start → ∃ t, InBlock (s', pages) t ∧ bitmapGet s t = true) :
    start % 64 ≤ 31 := by
  by_contra hhigh
  obtain ⟨t, ⟨hlo, hhi⟩, htrue⟩ := hmin (start - 1) (by omega)
  simp only at hlo hhi
  by_cases hin : start ≤ t
  · exact absurd (hfree t ⟨hin, by simp only; omega⟩) (by simp [htrue])
  · have ht : t = start - 1 := by omega
    have heq := huniform t start (by omega) rfl (by omega) (by omega)
    rw [htrue, hfree start ⟨le_rfl, by simp only; omega⟩] at heq
    cases heq

theorem marked_of_low (hlow : start % 64 ≤ 31) (hn : start + n ≤ 2^64)
    (hi : InBlock (start, n) i) : bitmapGet (bitmapSetRun s start true n) i = true := by
  obtain ⟨hlo, hhi⟩ := hi
  simp only at hlo hhi
  refine (bitmapGet_bitmapSetRun s start true n i hn).1 ?_
  by_cases hmid : 32 ≤ i % 64 ∧ i % 64 ≤ 62
  · -- the narrow mask misses `i`, but the write to bit 31 of the same word reaches it
    refine ⟨64 * (i / 64) + 31 - start, by omega, by omega, ?_⟩
    unfold Hit
    rw [if_pos (by omega)]
    omega
  · refine ⟨i - start, by omega, by omega, ?_⟩
    unfold Hit
    split_ifs <;> omega

theorem still_marked (hn : start + n ≤ 2^64)
    (hi : bitmapGet s i = true) : bitmapGet (bitmapSetRun s start true n) i = true := by
  by_cases hhit : ∃ t, t < n ∧ i / 64 = (start + t) / 64 ∧ Hit (start + t) (i % 64)
  · exact (bitmapGet_bitmapSetRun s start true n i hn).1 hhit
  · rw [(bitmapGet_bitmapSetRun s start true n i hn).2 fun t ht hw hh => hhit ⟨t, ht, hw, hh⟩]
    exact hi

theorem Inv.alloc (h : Inv capacity total s bs) (hcap : capacity ≤ 2^64) (hp : 0 < pages) (hfit : firstFit s pages = some (start, addr))
    (hle : start + pages ≤ capacity) :
    Inv capacity total (bitmapSetRun s start true pages) ((start, pages) :: bs) := by
  obtain ⟨haddr, hne, hcnt, hfree, hmin⟩ := h.firstFit_spec hp hfit
  have hlow := start_low (h.uniform (start / 64) (by omega)) hp hfree hmin
  have hclash : ∀ b ∈ bs, ∀ i, ¬ (InBlock (start, pages) i ∧ InBlock b i) := by
    intro b hb i hi
    have := h.marked b hb i hi.2
    rw [hfree i hi.1] at this
    cases this
  have hin : ∀ b ∈ (start, pages) :: bs, 0 < b.2 ∧ b.1 + b.2 ≤ s.pageCount ∧
      b.1 + b.2 ≤ capacity ∧ pageAt s b.1 ≠ 0 := by
    intro b hb
    rcases mem_cons.mp hb with rfl | hb
    · exact ⟨hp, hcnt, hle, haddr ▸ hne⟩
    · exact h.inside b hb
  have hapart : ((start, pages) :: bs).Pairwise fun x y => ∀ i, ¬ (InBlock x i ∧ InBlock y i) :=
    pairwise_cons.mpr ⟨hclash, h.apart⟩
  have hroom : pagesOut ((start, pages) :: bs) ≤ s.pageCount :=
    pagesOut_le hapart fun b hb => (hin b hb).2.1
  have hsum : pagesOut ((start, pages) :: bs) = pages + pagesOut bs := by simp [pagesOut]
  refine h.of_write hcap true hle hin ?_ hapart ?_ ?_
  · intro b hb i hi
    rcases mem_cons.mp hb with rfl | hb
    · exact marked_of_low hlow (by omega) hi
    · exact still_marked (by omega) (h.marked b hb i hi)
  · refine pairwise_cons.mpr ⟨?_, h.upper⟩
    intro b hb i j hi hj hw hup
    have heq := h.uniform (i / 64) (by have := hi.2; simp only at this; omega) i j rfl hw.symm
      hup.1 hup.2
    rw [hfree i hi, h.marked b hb j hj] at heq
    cases heq
  · have hcounter := h.counter
    have htotal := h.total_eq
    have hsmall := h.table.count
    rw [bitmapSetRun_freeMemory_true s start pages (by unfold PAGE_SIZE; omega) (by omega), hsum]
    unfold PAGE_SIZE
    omega

theorem Inv.free {idx : Nat} (h : Inv capacity total s ((idx, pages) :: bs)) (hcap : capacity ≤ 2^64)
    (hmid : ∀ i, idx ≤ i → i < idx + pages → 32 ≤ i % 64 → i % 64 ≤ 62 → i - 32 < idx →
      ∀ b ∈ bs, ¬ InBlock b (i - 32)) :
    Inv capacity total (bitmapSetRun s idx false pages) bs := by
  obtain ⟨hclash, hapart⟩ := pairwise_cons.mp h.apart
  obtain ⟨hhalf, hupper⟩ := pairwise_cons.mp h.upper
  obtain ⟨-, hcnt, hle, -⟩ := h.inside _ mem_cons_self
  simp only at hcnt hle
  refine h.of_write hcap false hle (fun b hb => h.inside b (mem_cons_of_mem _ hb)) ?_ hapart
    hupper ?_
  · intro b hb i hi
    rw [(bitmapGet_bitmapSetRun s idx false pages i (by omega)).2]
    · exact h.marked b (mem_cons_of_mem _ hb) i hi
    intro t ht hw hh
    have hblock : InBlock (idx, pages) (idx + t) := ⟨by simp only; omega, by simp only; omega⟩
    unfold Hit at hh
    split_ifs at hh with h31
    · -- the write to bit 31 or 63 reaches the upper half, which has one owner
      exact hhalf b hb (idx + t) i hblock hi hw.symm ⟨by omega, hh⟩
    · by_cases hlow : (idx + t) % 64 < 32
      · have heq : i = idx + t := by omega
        exact hclash b hb i ⟨heq ▸ hblock, hi⟩
      · have heq : i = idx + t - 32 := by omega
        by_cases hin : idx ≤ i
        · exact hclash b hb i ⟨⟨hin, by simp only; omega⟩, hi⟩
        · exact hmid (idx + t) (by omega) (by omega) (by omega) (by omega) (by omega) b hb
            (heq ▸ hi)
  · have hcounter := h.counter
    have htotal := h.total_eq
    have hsmall := h.table.count
    have hsum : pagesOut ((idx, pages) :: bs) = pages + pagesOut bs := by simp [pagesOut]
    rw [hsum] at hcounter
    rw [bitmapSetRun_freeMemory_false s idx pages (by unfold PAGE_SIZE; omega)]
    unfold PAGE_SIZE
    omega

def Good (capacity total : Nat) (r : RunState) : Prop :=
  ∃ bs : List (Nat × Nat), r.out.Perm (bs.map fun b => (pageAt r.phys b.1, b.2)) ∧
    Inv capacity total r.phys bs

theorem Inv.blocks_write (h : Inv capacity total s bs) (hcap : capacity ≤ 2^64) (v : Bool)
    (hn : start + n ≤ capacity) (hcs : ∀ b ∈ cs, b.1 < 2^64) :
    (cs.map fun b => (pageAt (bitmapSetRun s start v n) b.1, b.2)) =
      cs.map fun b => (pageAt s b.1, b.2) :=
  map_congr_left fun b hb => by rw [h.pageAt_write hcap v hn (hcs b hb)]

theorem Inv.index_lt (h : Inv capacity total s bs) {b : Nat × Nat} (hb : b ∈ bs) : b.1 < 2^64 := by
  have h1 := (h.inside b hb).2.1
  have h2 := h.table.count
  omega

theorem Good.alloc (hcap : capacity ≤ 2^64) (h : Good capacity total r) (hs : Sound capacity r (.alloc pages))
    (hstep : step r (.alloc pages) = some r') : Good capacity total r' := by
  obtain ⟨bs, hperm, hinv⟩ := h
  simp only [step, allocPhysPagesExact] at hstep
  by_cases hp : pages < 1
  · simp only [hp, if_true, some.injEq] at hstep
    exact hstep ▸ ⟨bs, hperm, hinv⟩
  · rw [if_neg hp, if_neg (by simp [hinv.bitmap, hinv.pageStart])] at hstep
    cases hfit : firstFit r.phys pages with
    | none =>
      simp only [hfit, if_true, some.injEq] at hstep
      exact hstep ▸ ⟨bs, hperm, hinv⟩
    | some found =>
      obtain ⟨start, addr⟩ := found
      obtain ⟨haddr, hne, -⟩ := hinv.firstFit_spec (by omega) hfit
      have hle := hinv.fit_inside (by omega) hfit hs
      have hnew := hinv.alloc hcap (by omega) hfit hle
      simp only [hfit, hne, if_false, some.injEq] at hstep
      refine hstep ▸ ⟨(start, pages) :: bs, ?_, hnew⟩
      simp only
      rw [hinv.blocks_write hcap true hle fun b hb => hnew.index_lt hb, map_cons, ← haddr]
      exact hperm.cons _

theorem pageIdxLoop_lt (mem : Nat → BitVec 64) (addr k m : Nat) (cur : Int) :
    pageIdxLoop mem addr k m cur < 2^63 := by
  induction k generalizing m cur with
  | zero => exact Int.lt_of_lt_of_le (by decide : (-1 : Int) < 0) (by decide)
  | succ k ih =>
    rw [pageIdxLoop]
    split_ifs
    · exact Int.lt_of_lt_of_le (by decide : (-1 : Int) < 0) (by decide)
    · exact toI64_lt _
    · exact ih _ _

theorem Good.free (hcap : capacity ≤ 2^64) {ptr : Nat} (h : Good capacity total r) (hs : Sound capacity r (.free ptr pages))
    (hstep : step r (.free ptr pages) = some r') : Good capacity total r' := by
  obtain ⟨bs, hperm, hinv⟩ := h
  obtain ⟨idx, hidx, hpage, hmid⟩ := hs
  rw [step] at hstep
  split_ifs at hstep with hmem
  simp only [some.injEq] at hstep
  obtain ⟨b, hb, hbeq⟩ := mem_map.mp (hperm.mem_iff.mp hmem)
  simp only [Prod.mk.injEq] at hbeq
  have hidx_lt : idx < 2^63 := by
    have := pageIdxLoop_lt r.phys.mem ptr r.phys.segmentCount r.phys.pageStart 0
    rw [pageIdx] at hidx
    omega
  have hne := (hinv.inside b hb).2.2.2
  -- `page_idx` has found the block's own index
  have hbidx : b.1 = idx :=
    hinv.table.injective (hinv.index_lt hb) (by omega) hne (by rw [hbeq.1, hpage])
  have hb' : b = (idx, pages) := Prod.ext hbidx hbeq.2
  have hcons := perm_cons_erase (hb' ▸ hb)
  have hinv' := hinv.perm hcons
  have hout : (r.out.erase (ptr, pages)).Perm
      ((bs.erase (idx, pages)).map fun b => (pageAt r.phys b.1, b.2)) := by
    have := (hperm.trans (hcons.map _)).erase (ptr, pages)
    rwa [map_cons, hpage, erase_cons_head] at this
  have hle := (hinv'.inside _ mem_cons_self).2.2.1
  have hnew := hinv'.free hcap fun i h1 h2 h3 h4 h5 c hc hin =>
    hmid i h1 h2 h3 h4 h5 c.1 c.2 (hout.mem_iff.mpr (mem_map.mpr ⟨c, hc, rfl⟩)) hin
  have hfree : freePhysPages r.phys ptr pages = bitmapSetRun r.phys idx false pages := by
    rw [freePhysPages, hidx, if_neg (by rw [← hbeq.1]; exact hne), if_neg (by omega),
      toU64_natCast, u64_of_lt (by omega)]
  refine hstep ▸ ⟨bs.erase (idx, pages), ?_, ?_⟩
  · simp only [hfree]
    rw [hinv'.blocks_write hcap false hle fun c hc => hnew.index_lt hc]
    exact hout
  · simp only [hfree]
    exact hnew

theorem Good.step (hcap : capacity ≤ 2^64) (r : RunState) (op : Op)
    (r' : RunState) (h : Good capacity total r) (hs : Sound capacity r op)
    (hstep : step r op = some r') : Good capacity total r' := by
  cases op with
  | alloc pages => exact h.alloc hcap hs hstep
  | free ptr pages => exact h.free hcap hs hstep

theorem Inv.separate (h : Inv capacity total s bs) : Separate (bs.map fun b => (pageAt s b.1, b.2)) := by
  have hbelow : ∀ x ∈ bs, ∀ y ∈ bs, x.1 + x.2 ≤ y.1 →
      pageAt s x.1 + 4096 * x.2 ≤ pageAt s y.1 := by
    intro x _ y hy hxy
    have := (h.table.spaced (by omega : x.1 ≤ y.1) (h.index_lt hy) (h.inside y hy).2.2.2).2
    omega
  refine pairwise_map.mpr (h.apart.imp_of_mem ?_)
  intro x y hx hy hxy f ⟨⟨hx1, hx2⟩, hy1, hy2⟩
  have hxpos := (h.inside x hx).1
  have hypos := (h.inside y hy).1
  have hxa := h.table.pageAt_aligned (h.index_lt hx)
  have hya := h.table.pageAt_aligned (h.index_lt hy)
  simp only at hx1 hx2 hy1 hy2
  have hcases : x.1 + x.2 ≤ y.1 ∨ y.1 + y.2 ≤ x.1 := by
    by_contra hno
    exact hxy (max x.1 y.1) ⟨⟨by omega, by omega⟩, ⟨by omega, by omega⟩⟩
  rcases hcases with hle | hle
  · have := hbelow x hx y hy hle
    omega
  · have := hbelow y hy x hx hle
    omega

theorem Good.accounted (h : Good capacity (memoryFree s) r) : Accounted s r := by
  obtain ⟨bs, hperm, hinv⟩ := h
  constructor
  · refine (hperm.pairwise_iff ?_).mpr hinv.separate
    intro x y hxy f hf
    exact hxy f ⟨hf.2, hf.1⟩
  · have hsum : pagesOut r.out = pagesOut bs := by
      unfold pagesOut
      rw [(hperm.map Prod.snd).sum_eq, List.map_map]
      rfl
    rw [hsum]
    exact hinv.counter

end Comus.PhysAlloc
