import Comus.Memory.PhysPasses

/-!
# Where alloc_phys_pages_exact takes its pages from

The search looks for consecutive bitmap indices. Whether the pages with these
indices are the pages behind the returned address depends on the segment the
run starts in and on the masks `bitmap_set` writes with.
-/

namespace Comus.PhysAlloc

open Word Option List

variable {x : Nat × Nat} {xs : List (Nat × Nat)} {a i cur t u j ms capacity start : Nat} {b : Boot}
  {map : List Segment} {s₀ s : Phys}

def Within (x : Nat × Nat) (a : Nat) : Prop := x.1 ≤ a ∧ a < x.1 + x.2

structure Spread (xs : List (Nat × Nat)) : Prop where
  ok : ∀ x ∈ xs, SegOk x
  pos : ∀ x ∈ xs, 0 < x.2 → 0 < x.1
  apart : xs.Pairwise fun x y => ∀ a, ¬ (Within x a ∧ Within y a)

theorem Spread.tail (h : Spread (x :: xs)) : Spread xs :=
  ⟨fun y hy => h.ok y (mem_cons_of_mem _ hy), fun y hy => h.pos y (mem_cons_of_mem _ hy),
    (pairwise_cons.mp h.apart).2⟩

theorem eq_of_pairwise_apart {α : Type} {P : α → Nat → Prop} {l : List α}
    (h : l.Pairwise fun x y => ∀ a, ¬ (P x a ∧ P y a)) {x y : α} (hx : x ∈ l) (hy : y ∈ l)
    (hxa : P x a) (hya : P y a) : x = y := by
  have hsymm : Std.Symm fun x y => ∀ a, ¬ (P x a ∧ P y a) := ⟨fun _ _ hxy b hb => hxy b hb.symm⟩
  by_contra hne
  exact h.forall hx hy hne a ⟨hxa, hya⟩

theorem Spread.unique {y : Nat × Nat} (h : Spread xs) (hx : x ∈ xs)
    (hy : y ∈ xs) (hxa : Within x a) (hya : Within y a) : x = y :=
  eq_of_pairwise_apart h.apart hx hy hxa hya

theorem within_of_lt {off : Nat} (h : off < pagesOf x.2) :
    Within x (x.1 + 4096 * off) := by
  unfold pagesOf at h
  exact ⟨by omega, by omega⟩

theorem pageAtList_found (hcur : cur ≤ i)
    (hne : pageAtList i xs cur ≠ 0) : ∃ x ∈ xs, ∃ off, off < pagesOf x.2 ∧
      ∀ j, off + j < pagesOf x.2 → pageAtList (i + j) xs cur = x.1 + 4096 * (off + j) := by
  induction xs generalizing cur with
  | nil => exact absurd rfl hne
  | cons x xs ih =>
    rw [pageAtList] at hne
    split_ifs at hne with hlt
    · refine ⟨x, mem_cons_self, i - cur, hlt, fun j hj => ?_⟩
      have hsub : i + j - cur = i - cur + j := by omega
      rw [pageAtList, hsub, if_pos hj]
    · obtain ⟨y, hy, off, hoff, hrun⟩ := ih (by omega) hne
      refine ⟨y, mem_cons_of_mem _ hy, off, hoff, fun j hj => ?_⟩
      rw [pageAtList, if_neg (by omega)]
      exact hrun j hj

theorem Spread.pageAtList_down (h : Spread xs) (hcur : cur ≤ t) (htu : t ≤ u) (hne : pageAtList u xs cur ≠ 0) : pageAtList t xs cur ≠ 0 := by
  induction xs generalizing cur with
  | nil => exact absurd rfl hne
  | cons x xs ih =>
    rw [pageAtList] at hne ⊢
    by_cases ht : t - cur < pagesOf x.2
    · have hpos := h.pos x mem_cons_self (by unfold pagesOf at ht; omega)
      rw [if_pos ht]
      omega
    · rw [if_neg ht]
      rw [if_neg (by omega)] at hne
      exact ih h.tail (by omega) hne

theorem Spread.pageAtList_inj (h : Spread xs) (hi : cur ≤ i) (hj : cur ≤ j) (heq : pageAtList i xs cur = pageAtList j xs cur)
    (hne : pageAtList i xs cur ≠ 0) : i = j := by
  induction xs generalizing cur with
  | nil => exact absurd rfl hne
  | cons x xs ih =>
    have hx := (pairwise_cons.mp h.apart).1
    -- an index inside `x` and one behind it give pages of different segments
    have hcross : ∀ i j, cur ≤ j → i - cur < pagesOf x.2 → ¬ j - cur < pagesOf x.2 →
        x.1 + 4096 * (i - cur) = pageAtList j xs (cur + pagesOf x.2) →
        pageAtList j xs (cur + pagesOf x.2) = 0 := by
      intro i j hj hin hout hval
      by_contra hnz
      obtain ⟨y, hy, off, hoff, hrun⟩ := pageAtList_found (by omega) hnz
      have hyj := hrun 0 (by omega)
      rw [add_zero, add_zero] at hyj
      exact hx y hy _ ⟨within_of_lt hin, by rw [hval, hyj]; exact within_of_lt hoff⟩
    rw [pageAtList] at heq hne
    rw [pageAtList] at heq
    by_cases hin : i - cur < pagesOf x.2
    · rw [if_pos hin] at heq hne
      by_cases hjn : j - cur < pagesOf x.2
      · rw [if_pos hjn] at heq
        omega
      · rw [if_neg hjn] at heq
        exact absurd (heq.trans (hcross i j hj hin hjn heq)) hne
    · rw [if_neg hin] at heq hne
      by_cases hjn : j - cur < pagesOf x.2
      · rw [if_pos hjn] at heq
        exact absurd (hcross j i hi hjn hin heq.symm) hne
      · rw [if_neg hjn] at heq
        exact ih h.tail (by omega) (by omega) heq hne

/-- Usable entries lie below the physical address limit and are shorter than `2^31`
pages; the map is an array of 256 entries. -/
structure MapFits (b : Boot) (map : List Segment) : Prop where
  count : map.length ≤ 256
  bound : ∀ seg ∈ map, Usable b seg → seg.addr + seg.len ≤ 2^52
  short : ∀ seg ∈ map, Usable b seg → Short seg.len
  disjoint : DisjointMap map

section MapFits

variable (h : MapFits b map) (hpos : 0 < ms)
include h hpos

theorem MapFits.clampSegment_spec {seg : Segment} (hseg : seg ∈ map) (hvalid : segmentInvalid b ms seg = false) :
    (clampSegment b ms seg).1 = max seg.addr ms ∧
      (clampSegment b ms seg).1 + (clampSegment b ms seg).2 = seg.addr + seg.len ∧
      seg.addr + seg.len ≤ 2^52 ∧ Short (clampSegment b ms seg).2 := by
  obtain ⟨husable, hms⟩ := usable_of_valid hvalid
  have hbound := h.bound seg hseg husable
  have hshort := h.short seg hseg husable
  have hstart : clampStart b ms = ms := if_pos (by omega)
  rw [u64_of_lt (by omega)] at hms
  rw [clampSegment_eq (by omega) (by omega), hstart]
  unfold Short at *
  exact ⟨rfl, by dsimp only; omega, hbound, by dsimp only; omega⟩

theorem MapFits.mem_clamped (hx : x ∈ clamped b ms map) :
    ∃ seg ∈ map, seg.type = .free ∧ x.1 = max seg.addr ms ∧ x.1 + x.2 = seg.addr + seg.len := by
  obtain ⟨seg, hseg, rfl⟩ := mem_map.mp hx
  obtain ⟨hmem, hvalid⟩ := mem_filter.mp hseg
  have hv : segmentInvalid b ms seg = false := by simpa using hvalid
  obtain ⟨h1, h2, -, -⟩ := h.clampSegment_spec hpos hmem hv
  exact ⟨seg, hmem, (usable_of_valid hv).1.1, h1, h2⟩

theorem MapFits.clamped_spread {k : Nat}
    : Spread (clamped b ms map ++ replicate k (0, 0)) := by
  have hempty : ∀ x ∈ replicate k ((0, 0) : Nat × Nat), x = (0, 0) :=
    fun x hx => eq_of_mem_replicate hx
  refine ⟨fun x hx => ?_, fun x hx hlen => ?_, pairwise_append.mpr ⟨?_, ?_, ?_⟩⟩
  · rcases mem_append.mp hx with hx | hx
    · obtain ⟨seg, hseg, rfl⟩ := mem_map.mp hx
      obtain ⟨hmem, hvalid⟩ := mem_filter.mp hseg
      obtain ⟨h1, h2, h3, h4⟩ := h.clampSegment_spec hpos hmem (by simpa using hvalid)
      exact ⟨h4, by unfold pagesOf; omega⟩
    · rw [hempty x hx]
      exact ⟨by unfold Short; omega, by unfold pagesOf; omega⟩
  · rcases mem_append.mp hx with hx | hx
    · obtain ⟨seg, -, -, h1, -⟩ := h.mem_clamped hpos hx
      omega
    · rw [hempty x hx] at hlen
      cases hlen
  · refine pairwise_map.mpr ?_
    refine (Pairwise.filter _ h.disjoint).imp_of_mem fun {x y} hx hy hxy a => ?_
    obtain ⟨hxm, hxv⟩ := mem_filter.mp hx
    obtain ⟨hym, hyv⟩ := mem_filter.mp hy
    obtain ⟨hx1, hx2, -, -⟩ := h.clampSegment_spec hpos hxm (by simpa using hxv)
    obtain ⟨hy1, hy2, -, -⟩ := h.clampSegment_spec hpos hym (by simpa using hyv)
    rintro ⟨hxa, hya⟩
    unfold Within at hxa hya
    exact hxy a ⟨⟨by omega, by omega⟩, by omega, by omega⟩
  · refine pairwise_of_forall_mem_list fun x hx y _ a ha => ?_
    rw [hempty x hx] at ha
    exact absurd ha.1.2 (by simp)
  · intro x _ y hy a ha
    rw [hempty y hy] at ha
    exact absurd ha.2.2 (by simp)

theorem MapFits.clamped_lt : ∀ x ∈ clamped b ms map, x.1 < 2^64 ∧ x.2 < 2^64 := by
  intro x hx
  obtain ⟨seg, hseg, rfl⟩ := mem_map.mp hx
  obtain ⟨hmem, hvalid⟩ := mem_filter.mp hseg
  obtain ⟨h1, h2, h3, -⟩ := h.clampSegment_spec hpos hmem (by simpa using hvalid)
  omega

end MapFits

def Inside (capacity : Nat) (r : RunState) : Op → Prop
  | .alloc pages => ∀ start addr, firstFit r.phys pages = some (start, addr) →
      start + pages ≤ capacity
  | .free ptr pages => pageIdx r.phys ptr = -1 ∨
      ∃ idx : Nat, pageIdx r.phys ptr = idx ∧ idx + pages ≤ capacity

/-- What such calls leave as `physalloc_init` made it. -/
structure Kept (capacity : Nat) (s₀ s : Phys) : Prop where
  bitmap : s.bitmap = s₀.bitmap
  pageStart : s.pageStart = s₀.pageStart
  pageCount : s.pageCount = s₀.pageCount
  segmentCount : s.segmentCount = s₀.segmentCount
  memoryStart : s.memoryStart = s₀.memoryStart
  table : readTable s.mem s.segmentCount s.pageStart =
    readTable s₀.mem s₀.segmentCount s₀.pageStart
  uniform : ∀ w, 64 * w < capacity → Uniform s w

theorem Kept.write (h : Kept capacity s₀ s)
    (hareas : AreasApart capacity s₀) (hcap : capacity ≤ 2^64) {n : Nat} (v : Bool)
    (hn : start + n ≤ capacity) : Kept capacity s₀ (bitmapSetRun s start v n) := by
  obtain ⟨hbm, hps, hpc, hsc⟩ := bitmapSetRun_fields s start v n
  have hareas' : AreasApart capacity s := by
    intro a i hlo hhi hi
    rw [h.pageStart] at hlo hhi
    rw [h.segmentCount] at hhi
    rw [h.bitmap]
    exact hareas a i hlo hhi hi
  exact ⟨hbm.trans h.bitmap, hps.trans h.pageStart, hpc.trans h.pageCount,
    hsc.trans h.segmentCount, (bitmapSetRun_memoryStart s start v n).trans h.memoryStart,
    (hareas'.readTable_eq hn hcap v).trans h.table,
    fun w hw => bitmapSetRun_uniform (h.uniform w hw) start v n⟩

theorem Kept.step (hareas : AreasApart capacity s₀)
    (hcap : capacity ≤ 2^64) (hbitmap : s₀.bitmap ≠ 0) (hstart : s₀.pageStart ≠ 0) (r : RunState)
    (op : Op) (r' : RunState) (h : Kept capacity s₀ r.phys) (hok : Inside capacity r op)
    (hstep : step r op = some r') : Kept capacity s₀ r'.phys := by
  cases op with
  | alloc pages =>
    have hready : ¬ (r.phys.bitmap = 0 ∨ r.phys.pageStart = 0) := by
      rw [h.bitmap, h.pageStart]
      exact not_or.mpr ⟨hbitmap, hstart⟩
    unfold PhysAlloc.step allocPhysPagesExact at hstep
    dsimp only at hstep
    rw [if_neg hready] at hstep
    by_cases hp : pages < 1
    · rw [if_pos hp] at hstep
      cases hstep
      exact h
    · rw [if_neg hp] at hstep
      cases hfit : firstFit r.phys pages with
      | none =>
        rw [hfit] at hstep
        cases hstep
        exact h
      | some found =>
        rw [hfit] at hstep
        cases hstep
        exact h.write hareas hcap true (hok _ _ hfit)
  | free ptr pages =>
    unfold PhysAlloc.step at hstep
    dsimp only at hstep
    split_ifs at hstep with hout
    cases hstep
    dsimp only
    unfold freePhysPages
    split_ifs with hnull hminus
    · exact h
    · exact h
    · rcases hok with hminus' | ⟨idx, hidx, hin⟩
      · exact absurd hminus' hminus
      · have hlt : pageIdx r.phys ptr < 2^63 := pageIdxLoop_lt _ _ _ _ _
        rw [hidx] at hlt
        rw [hidx, toU64_natCast, u64_of_lt (by omega)]
        exact h.write hareas hcap false hin

/-- The pages behind the returned address are aligned, lie in one free entry of the map
and above the bump pointer, and are those whose bits the call has set. -/
def Placed (map : List Segment) (s s' : Phys) (pages addr : Nat) : Prop :=
  addr % 4096 = 0 ∧
    (∃ seg ∈ map, seg.type = .free ∧ seg.addr ≤ addr ∧ addr + 4096 * pages ≤ seg.addr + seg.len) ∧
    s.memoryStart ≤ addr ∧
    ∀ i, i < s.pageCount → (bitmapGet s i = false ∧ bitmapGet s' i = true ↔
      ∃ j, j < pages ∧ pageAt s i = addr + 4096 * j)

/-- When the run of indices from `start` on is the run of pages from `addr` on: the
segment is page aligned and has room for all of them, a run that reaches bit 31 of a
bitmap word takes the rest of the word, and one that reaches bits 32 to 62 starts at
or below the bit 32 lower, or that one is set already. -/
structure Fitting (s : Phys) (pages start addr : Nat) : Prop where
  aligned : addr % 4096 = 0
  whole : ∃ x ∈ readTable s.mem s.segmentCount s.pageStart,
    x.1 ≤ addr ∧ addr + 4096 * pages ≤ x.1 + x.2
  word : ∀ w, start ≤ w → w < start + pages → w % 64 = 31 →
    min (64 * (w / 64) + 64) s.pageCount ≤ start + pages
  lower : ∀ i, start ≤ i → i < start + pages → 32 ≤ i % 64 → i % 64 ≤ 62 →
    start ≤ i - 32 ∨ bitmapGet s (i - 32) = true

theorem marked_run_iff {pages : Nat} (hlt : start + pages ≤ 2^64)
    (hcount : start + pages ≤ s.pageCount) (hlow : start % 64 ≤ 31)
    (huniform : ∀ w, start ≤ w → w < start + pages → Uniform s (w / 64))
    (hfree : ∀ t, InBlock (start, pages) t → bitmapGet s t = false) :
    (∀ i, i < s.pageCount → (bitmapGet s i = false ∧
        bitmapGet (bitmapSetRun s start true pages) i = true ↔ start ≤ i ∧ i < start + pages)) ↔
      (∀ w, start ≤ w → w < start + pages → w % 64 = 31 →
        min (64 * (w / 64) + 64) s.pageCount ≤ start + pages) ∧
      ∀ i, start ≤ i → i < start + pages → 32 ≤ i % 64 → i % 64 ≤ 62 →
        start ≤ i - 32 ∨ bitmapGet s (i - 32) = true := by
  constructor
  · intro hmarks
    constructor
    · intro w hw hw' h31
      by_contra hover
      -- the page behind the run is free as bit 31 is, and the mask of `w` reaches it
      have hsame : bitmapGet s w = bitmapGet s (start + pages) :=
        huniform w hw hw' w (start + pages) rfl (by omega) (by omega) (by omega)
      have hset : bitmapGet (bitmapSetRun s start true pages) (start + pages) = true := by
        refine (bitmapGet_bitmapSetRun s start true pages _ hlt).1 ⟨w - start, by omega, by omega, ?_⟩
        unfold Hit
        rw [if_pos (by omega)]
        omega
      have := ((hmarks (start + pages) (by omega)).mp
        ⟨hsame ▸ hfree w ⟨hw, hw'⟩, hset⟩).2
      omega
    · intro i hi hi' h32 h62
      by_contra hnot
      obtain ⟨hbelow, hclear⟩ := not_or.mp hnot
      have hset : bitmapGet (bitmapSetRun s start true pages) (i - 32) = true := by
        refine (bitmapGet_bitmapSetRun s start true pages _ hlt).1 ⟨i - start, by omega, by omega, ?_⟩
        unfold Hit
        rw [if_neg (by omega)]
        omega
      exact hbelow ((hmarks (i - 32) (by omega)).mp ⟨by simpa using hclear, hset⟩).1
  · rintro ⟨hword, hlower⟩ i hi
    constructor
    · rintro ⟨hclear, hset⟩
      have hhit : ∃ t, t < pages ∧ i / 64 = (start + t) / 64 ∧ Hit (start + t) (i % 64) := by
        by_contra hnone
        rw [(bitmapGet_bitmapSetRun s start true pages i hlt).2
          fun t ht hw hh => hnone ⟨t, ht, hw, hh⟩, hclear] at hset
        cases hset
      obtain ⟨t, ht, hw, hh⟩ := hhit
      unfold Hit at hh
      split_ifs at hh with h31
      · have := hword (64 * (i / 64) + 31) (by omega) (by omega) (by omega)
        omega
      · by_cases hhigh : 32 ≤ (start + t) % 64
        · have heq : start + t - 32 = i := by omega
          have := (hlower (start + t) (by omega) (by omega) hhigh (by omega)).resolve_right
            (by rw [heq, hclear]; decide)
          omega
        · omega
    · intro hrun
      exact ⟨hfree i hrun, marked_of_low hlow hlt hrun⟩

theorem Spread.pageAt_eq (h : Spread (readTable s.mem s.segmentCount s.pageStart)) (hi : i < 2^64) :
    pageAt s i = pageAtList i (readTable s.mem s.segmentCount s.pageStart) 0 :=
  pageAtLoop_eq_list _ _ _ _ _ hi (Nat.zero_le i) h.ok

theorem DisjointMap.unique (h : DisjointMap map) {x y : Segment}
    (hx : x ∈ map) (hy : y ∈ map) (hxa : x.addr ≤ a ∧ a < x.addr + x.len)
    (hya : y.addr ≤ a ∧ a < y.addr + y.len) : x = y :=
  eq_of_pairwise_apart (P := fun (x : Segment) a => x.addr ≤ a ∧ a < x.addr + x.len) h hx hy hxa hya

structure FromMap (map : List Segment) (s : Phys) : Prop where
  spread : Spread (readTable s.mem s.segmentCount s.pageStart)
  disjoint : DisjointMap map
  entry : ∀ x ∈ readTable s.mem s.segmentCount s.pageStart, 0 < x.2 → ∃ seg ∈ map,
    seg.type = .free ∧ x.1 = max seg.addr s.memoryStart ∧ x.1 + x.2 = seg.addr + seg.len
  count : s.pageCount < 2^64

section
variable {map : List Segment} {s : Phys} {pages start addr : Nat}

section FromMap

variable (h : FromMap map s)
include h

theorem FromMap.pageAt_down (htu : t ≤ u) (hu : u < 2^64)
    (hne : pageAt s u ≠ 0) : pageAt s t ≠ 0 := by
  rw [h.spread.pageAt_eq hu] at hne
  rw [h.spread.pageAt_eq (by omega)]
  exact h.spread.pageAtList_down (Nat.zero_le t) htu hne

theorem FromMap.segment_of_page (hstart : start < 2^64)
    (hne : pageAt s start ≠ 0) : ∃ x ∈ readTable s.mem s.segmentCount s.pageStart,
      Within x (pageAt s start) ∧ ∀ n, pageAt s start + 4096 * n ≤ x.1 + x.2 →
        ∀ j, j < n → start + j < 2^64 → pageAt s (start + j) = pageAt s start + 4096 * j := by
  rw [h.spread.pageAt_eq hstart] at hne ⊢
  obtain ⟨x, hx, off, hoff, hrun⟩ := pageAtList_found (Nat.zero_le start) hne
  have hval := hrun 0 hoff
  rw [add_zero, add_zero] at hval
  refine ⟨x, hx, hval ▸ within_of_lt hoff, fun n hn j hj hlt => ?_⟩
  rw [h.spread.pageAt_eq hlt, hrun j (by unfold pagesOf; omega), hval]
  omega

theorem FromMap.pageAt_inj (hi : i < 2^64) (hj : j < 2^64)
    (heq : pageAt s i = pageAt s j) (hne : pageAt s i ≠ 0) : i = j := by
  rw [h.spread.pageAt_eq hi] at heq hne
  rw [h.spread.pageAt_eq hj] at heq
  exact h.spread.pageAtList_inj (Nat.zero_le i) (Nat.zero_le j) heq hne

theorem FromMap.whole_iff (hpages : 1 ≤ pages)
    (hx : x ∈ readTable s.mem s.segmentCount s.pageStart) (hin : Within x addr) :
    (∃ seg ∈ map, seg.type = .free ∧ seg.addr ≤ addr ∧
        addr + 4096 * pages ≤ seg.addr + seg.len) ∧ s.memoryStart ≤ addr ↔
      addr + 4096 * pages ≤ x.1 + x.2 := by
  unfold Within at hin
  obtain ⟨own, hown, hfree, hlo, hhi⟩ := h.entry x hx (by omega)
  constructor
  · rintro ⟨⟨seg, hseg, -, hsl, hsh⟩, -⟩
    obtain rfl := h.disjoint.unique hseg hown (a := addr) ⟨hsl, by omega⟩ ⟨by omega, by omega⟩
    omega
  · intro hroom
    exact ⟨⟨own, hown, hfree, by omega, by omega⟩, by omega⟩

theorem FromMap.marks_iff (hcount : start + pages ≤ s.pageCount)
    (hne : pageAt s start ≠ 0)
    (hrun : ∀ j, j < pages → pageAt s (start + j) = pageAt s start + 4096 * j) {s' : Phys} :
    (∀ i, i < s.pageCount → (bitmapGet s i = false ∧ bitmapGet s' i = true ↔
        ∃ j, j < pages ∧ pageAt s i = pageAt s start + 4096 * j)) ↔
      ∀ i, i < s.pageCount → (bitmapGet s i = false ∧ bitmapGet s' i = true ↔
        start ≤ i ∧ i < start + pages) := by
  have hcnt := h.count
  have hpage : ∀ i, i < s.pageCount → ((∃ j, j < pages ∧ pageAt s i = pageAt s start + 4096 * j) ↔
      start ≤ i ∧ i < start + pages) := by
    intro i hi
    constructor
    · rintro ⟨j, hj, hij⟩
      have heq := h.pageAt_inj (i := start + j) (j := i) (by omega) (by omega)
        ((hrun j hj).trans hij.symm) (by rw [hrun j hj]; omega)
      omega
    · rintro ⟨hlo, hhi⟩
      refine ⟨i - start, by omega, ?_⟩
      rw [← hrun (i - start) (by omega)]
      congr 1
      omega
  constructor
  · exact fun hall i hi => (hall i hi).trans (hpage i hi)
  · exact fun hall i hi => (hall i hi).trans (hpage i hi).symm

theorem FromMap.placed_iff (hpages : 1 ≤ pages)
    (huniform : ∀ w, w < start + pages → Uniform s (w / 64))
    (hfit : firstFit s pages = some (start, addr)) :
    Placed map s (bitmapSetRun s start true pages) pages addr ↔ Fitting s pages start addr := by
  have hcnt := h.count
  obtain ⟨haddr, hne, hcount, hfree, hmin⟩ := firstFit_least
    (fun t u htu hu hnu => h.pageAt_down htu (by omega) hnu) hpages hfit
  have hlow := start_low (huniform start (by omega)) hpages hfree hmin
  subst haddr
  obtain ⟨x, hx, hin, hrun⟩ := h.segment_of_page (by omega) hne
  have hwhole := h.whole_iff hpages hx hin
  have hmarked := marked_run_iff (s := s) (by omega) hcount hlow (fun w _ hw => huniform w hw) hfree
  constructor
  · rintro ⟨haligned, hentry, hms, hmarks⟩
    have hroom := hwhole.mp ⟨hentry, hms⟩
    have hrun' := fun j hj => hrun pages hroom j hj (by omega)
    obtain ⟨hword, hlower⟩ := hmarked.mp ((h.marks_iff hcount hne hrun').mp hmarks)
    exact ⟨haligned, ⟨x, hx, hin.1, hroom⟩, hword, hlower⟩
  · rintro ⟨haligned, ⟨y, hy, hylo, hyhi⟩, hword, hlower⟩
    obtain rfl := h.spread.unique hy hx ⟨hylo, by omega⟩ hin
    obtain ⟨hentry, hms⟩ := hwhole.mpr hyhi
    have hrun' := fun j hj => hrun pages hyhi j hj (by omega)
    exact ⟨haligned, hentry, hms, (h.marks_iff hcount hne hrun').mpr (hmarked.mpr ⟨hword, hlower⟩)⟩

end FromMap

end

theorem bitmapCapacity_lt (b : Boot) (map : List Segment) : bitmapCapacity b map < 2^64 := by
  have := countedPages_lt b map
  unfold bitmapCapacity bitmapSize bitmapPages PAGE_SIZE
  omega

theorem physallocInit_kept (hb : BootOk b map) (mem : Nat → BitVec 64) :
    Kept (bitmapCapacity b map) (physallocInit b map mem) (physallocInit b map mem) :=
  ⟨rfl, rfl, rfl, rfl, rfl, rfl, fun _ hw => physallocInit_uniform hb mem hw⟩

theorem Kept.fromMap (hb : BootOk b map) (hmap : MapFits b map)
    {mem : Nat → BitVec 64} (h : Kept (bitmapCapacity b map) (physallocInit b map mem) s) : FromMap map s := by
  have hpos := (bootMemoryStart_aligned hb.kernel hb.tables (countedPages_lt b map)
    (countedSegments_le (b := b) hmap.count)).1
  have hread := h.table.trans (readTable_physallocInit b map mem (hmap.clamped_lt hpos))
  have hms : s.memoryStart = bootMemoryStart b (countedPages b map) (countedSegments b map) :=
    h.memoryStart
  refine ⟨hread ▸ hmap.clamped_spread hpos, hmap.disjoint, ?_, ?_⟩
  · intro x hx hlen
    rw [hread] at hx
    rcases mem_append.mp hx with hx | hx
    · rw [hms]
      exact hmap.mem_clamped hpos hx
    · rw [eq_of_mem_replicate hx] at hlen
      cases hlen
  · rw [h.pageCount]
    exact sub64_lt _ _

theorem smallMap_fits : MapFits smallBoot smallMap where
  count := by decide
  bound := by simp [smallMap]
  short := by simp [smallMap, Short]
  disjoint := pairwise_singleton _ _

def gapMap : List Segment := [⟨0x300000, 0x2000, .free⟩, ⟨0x400000, 0x2000, .free⟩]

end Comus.PhysAlloc
