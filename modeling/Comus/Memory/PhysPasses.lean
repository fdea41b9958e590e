import Comus.Memory.PhysBoot

/-!
# What the two passes of physalloc_init agree on

The bitmap is sized, and the bump pointer set, from the counts of the first
pass; the table is written by the second one, which filters and clamps with the
bump pointer that came out in between.
-/

namespace Comus.PhysAlloc

open Word List

variable {b : Boot} {ms : Nat} {seg : Segment} {map : List Segment}

theorem countPass_lt (b : Boot) (map : List Segment) (pc sc : Nat) (h : pc < 2^64) :
    (countPass b map pc sc).1 < 2^64 := by
  induction map generalizing pc sc with
  | nil => exact h
  | cons seg map ih =>
    rw [countPass]
    split_ifs
    · exact ih pc sc h
    · exact ih _ _ (toU64_lt _)

theorem countedPages_lt (b : Boot) (map : List Segment) : countedPages b map < 2^64 :=
  countPass_lt b map 0 0 (by decide)

def BitmapCovers (b : Boot) (map : List Segment) (mem : Nat → BitVec 64) : Prop :=
  ∀ i, i < (physallocInit b map mem).pageCount → i / 64 < bitmapSize (countedPages b map) / 8

/-- One page of bitmap is counted for `64 * 4096` pages, as if its bytes were words:
it has bits for an eighth of them, and a map without pages wraps the page count. -/
theorem bitmap_covers_iff (b : Boot) (map : List Segment) (mem : Nat → BitVec 64) :
    BitmapCovers b map mem ↔ 1 ≤ countedPages b map ∧ countedPages b map ≤ 32769 := by
  have hlt := countedPages_lt b map
  have hcount : (physallocInit b map mem).pageCount =
      sub64 (countedPages b map) (bitmapPages (countedPages b map)) := rfl
  unfold BitmapCovers
  rw [hcount]
  generalize countedPages b map = n at *
  unfold bitmapSize
  constructor
  · intro hcovers
    -- the last page scanned is the one without a bit
    have hlast := hcovers (sub64 n (bitmapPages n) - 1)
    rcases eq_zero_or_pos n with rfl | hpos
    · have hwrap : sub64 0 (bitmapPages 0) = 2^64 - 1 := by decide +kernel
      rw [hwrap] at hlast
      exact absurd (hlast (by omega)) (by decide)
    · rw [sub64_of_le (bitmapPages_le hpos) hlt] at hlast
      unfold bitmapPages PAGE_SIZE at hlast
      omega
  · rintro ⟨hpos, hle⟩ i hi
    rw [sub64_of_le (bitmapPages_le hpos) hlt] at hi
    unfold bitmapPages PAGE_SIZE at *
    omega

def quarterMap : List Segment := [⟨0x200000, 0x10000000, .free⟩]

/-- The last of its pages has its bit at the start of the page behind the bitmap. -/
theorem bitmap_too_short : ¬ BitmapCovers smallBoot quarterMap fun _ => 0#64 := by
  intro hcovers
  have hpages : (physallocInit smallBoot quarterMap fun _ => 0#64).pageCount = 65535 := by
    decide +kernel
  have hsize : bitmapSize (countedPages smallBoot quarterMap) = 4096 := by decide +kernel
  have hword := hcovers 32768 (by rw [hpages]; decide)
  rw [hsize] at hword
  exact absurd hword (by decide)

theorem countPass_fst_toU64 (b : Boot) (map : List Segment) (pc sc : Nat) (h : pc < 2^64) :
    (countPass b map pc sc).1 =
      toU64 (pc + ((clamped b 0 map).map fun x => nPages x.2).sum) := by
  induction map generalizing pc sc with
  | nil =>
    change pc = toU64 ((pc : Int) + 0)
    rw [Int.add_zero, toU64_natCast, u64_of_lt h]
  | cons seg map ih =>
    rw [countPass, clamped_cons]
    split_ifs
    · exact ih pc sc h
    · rw [ih _ _ (toU64_lt _), toU64_add, map_cons, sum_cons, Int.add_assoc]

/-- The clamped segment is what is left of the entry: its length has not wrapped. -/
def ClampExact (b : Boot) (memoryStart : Nat) (seg : Segment) : Prop :=
  seg.addr < clampStart b memoryStart → clampStart b memoryStart - seg.addr ≤ seg.len

def DisjointMap (map : List Segment) : Prop :=
  map.Pairwise fun x y => ∀ a, ¬ ((x.addr ≤ a ∧ a < x.addr + x.len) ∧
    y.addr ≤ a ∧ a < y.addr + y.len)

structure Words (b : Boot) (map : List Segment) : Prop where
  kernel : kernelRealEnd b < 2^64
  entries : ∀ seg ∈ map, seg.addr < 2^64 ∧ seg.len < 2^64

/-- As many segments are written as were counted, no length wraps in either pass, and
the counted pages are those of the segments in the table. -/
structure PassesAgree (b : Boot) (map : List Segment) (s : Phys) : Prop where
  segments : (clamped b s.memoryStart map).length = s.segmentCount
  counted : ∀ seg ∈ map, segmentInvalid b 0 seg = false → ClampExact b 0 seg
  written : ∀ seg ∈ map, segmentInvalid b s.memoryStart seg = false →
    ClampExact b s.memoryStart seg
  pages : u64 (s.pageCount + bitmapPages (countedPages b map)) =
    toU64 ((readTable s.mem s.segmentCount s.pageStart).map fun x => nPages x.2).sum

/-- What an entry that the first pass counts must satisfy, `ms` being the bump pointer
the second pass works with: it does not end below `ms`, it does not end inside the
loaded image, and the part of it from `ms` on has as many pages as the part behind
the image. -/
structure CountedAlike (b : Boot) (ms : Nat) (seg : Segment) : Prop where
  reaches : ms ≤ u64 (seg.addr + seg.len)
  image : ClampExact b 0 seg
  start : ClampExact b ms seg
  pages : nPages (clampSegment b 0 seg).2 = nPages (clampSegment b ms seg).2

theorem segmentInvalid_zero (h : segmentInvalid b 0 seg = false) :
    segmentInvalid b ms seg = false ↔ ms ≤ u64 (seg.addr + seg.len) := by
  simp only [segmentInvalid, Bool.or_eq_false_iff, decide_eq_false_iff_not] at h ⊢
  obtain ⟨⟨⟨⟨hlen, htype⟩, hlow⟩, -⟩, hend⟩ := h
  constructor
  · exact fun h => Nat.le_of_not_lt h.1.2
  · exact fun h => ⟨⟨⟨⟨hlen, htype⟩, hlow⟩, not_lt.mpr h⟩, hend⟩

theorem segmentInvalid_mono (h : segmentInvalid b ms seg = false) : segmentInvalid b 0 seg = false := by
  simp only [segmentInvalid, Bool.or_eq_false_iff, decide_eq_false_iff_not] at h ⊢
  exact ⟨⟨h.1.1, Nat.not_lt_zero _⟩, h.2⟩

theorem clamped_length_eq_iff (b : Boot) (ms : Nat) (map : List Segment) :
    (clamped b ms map).length = (clamped b 0 map).length ↔
      ∀ seg ∈ map, segmentInvalid b 0 seg = false → segmentInvalid b ms seg = false := by
  induction map with
  | nil => exact ⟨fun _ _ h => absurd h not_mem_nil, fun _ => rfl⟩
  | cons seg map ih =>
    have hle := clamped_length_le b ms map
    rw [clamped_cons, clamped_cons, forall_mem_cons]
    by_cases h0 : segmentInvalid b 0 seg = true
    · have hms : segmentInvalid b ms seg = true := by
        by_contra hms
        rw [segmentInvalid_mono (Bool.eq_false_iff.mpr hms)] at h0
        cases h0
      rw [if_pos h0, if_pos hms, ih]
      exact ⟨fun h => ⟨fun h' => absurd h0 (by simp [h']), h⟩, fun h => h.2⟩
    · rw [if_neg h0]
      by_cases hms : segmentInvalid b ms seg = true
      · rw [if_pos hms, length_cons]
        constructor
        · intro h
          omega
        · intro h
          exact absurd (h.1 (Bool.eq_false_iff.mpr h0)) (by simp [hms])
      · rw [if_neg hms, length_cons, length_cons, Nat.add_right_cancel_iff, ih]
        exact ⟨fun h => ⟨fun _ => Bool.eq_false_iff.mpr hms, h⟩, fun h => h.2⟩

theorem clamped_eq_map (h : ∀ seg ∈ map, segmentInvalid b 0 seg = false → segmentInvalid b ms seg = false) :
    clamped b ms map =
      (map.filter fun seg => !segmentInvalid b 0 seg).map (clampSegment b ms) := by
  unfold clamped
  congr 1
  refine filter_congr fun seg hseg => ?_
  cases h0 : segmentInvalid b 0 seg with
  | false => rw [h seg hseg h0]
  | true =>
    cases hms : segmentInvalid b ms seg with
    | false => exact absurd (segmentInvalid_mono hms) (by simp [h0])
    | true => rfl

/-- Two sums that agree modulo `2^64` agree in every term, when at most one term
differs and the terms are `int` values. -/
theorem terms_eq_of_toU64_sum_eq {α : Type*} (f g : α → Int) {xs : List α}
    (hone : xs.Pairwise fun x y => f x = g x ∨ f y = g y)
    (hf : ∀ x, -2^31 ≤ f x ∧ f x < 2^31) (hg : ∀ x, -2^31 ≤ g x ∧ g x < 2^31)
    (hsum : toU64 (xs.map f).sum = toU64 (xs.map g).sum) : ∀ x ∈ xs, f x = g x := by
  induction xs with
  | nil => exact fun _ h => absurd h not_mem_nil
  | cons x xs ih =>
    obtain ⟨hx, hxs⟩ := pairwise_cons.mp hone
    rw [map_cons, map_cons, sum_cons, sum_cons, toU64_eq_iff] at hsum
    rw [forall_mem_cons]
    by_cases heq : f x = g x
    · refine ⟨heq, ih hxs ?_⟩
      rw [toU64_eq_iff]
      omega
    · have hrest : ∀ y ∈ xs, f y = g y := fun y hy => (hx y hy).resolve_left heq
      have hfx := hf x
      have hgx := hg x
      rw [map_congr_left hrest] at hsum
      exact absurd (by omega : f x = g x) heq

theorem clampSegment_of_le (h : clampStart b ms ≤ seg.addr) : clampSegment b ms seg = (seg.addr, seg.len) :=
  if_neg (not_lt.mpr h)

theorem straddles_of_pages_ne (h0 : ClampExact b 0 seg) (hms : ClampExact b ms seg)
    (hne : nPages (clampSegment b 0 seg).2 ≠ nPages (clampSegment b ms seg).2) :
    seg.addr ≤ max (clampStart b 0) (clampStart b ms) - 1 ∧
      max (clampStart b 0) (clampStart b ms) - 1 < seg.addr + seg.len := by
  by_contra hnot
  refine hne ?_
  unfold ClampExact at h0 hms
  rcases lt_or_ge seg.addr (max (clampStart b 0) (clampStart b ms)) with hlt | hge
  · omega
  · rw [clampSegment_of_le (by omega), clampSegment_of_le (by omega)]

theorem nPages_int (len : Nat) : -2^31 ≤ nPages len ∧ nPages len < 2^31 := toI32_range _

theorem clampSegment_lt (hstart : clampStart b ms < 2^64) (hseg : seg.addr < 2^64 ∧ seg.len < 2^64) :
    (clampSegment b ms seg).1 < 2^64 ∧ (clampSegment b ms seg).2 < 2^64 := by
  have hdef : clampSegment b ms seg = if seg.addr < clampStart b ms then
      (clampStart b ms, sub64 seg.len (clampStart b ms - seg.addr)) else (seg.addr, seg.len) := rfl
  rw [hdef]
  split_ifs
  · exact ⟨hstart, sub64_lt _ _⟩
  · exact hseg

theorem Words.clamped_lt (h : Words b map) (n k : Nat) :
    ∀ x ∈ clamped b (bootMemoryStart b n k) map, x.1 < 2^64 ∧ x.2 < 2^64 := by
  intro x hx
  obtain ⟨seg, hseg, rfl⟩ := mem_map.mp hx
  refine clampSegment_lt ?_ (h.entries seg (mem_filter.mp hseg).1)
  unfold clampStart
  split_ifs
  · exact u64_lt _
  · exact h.kernel

theorem sum_nPages_replicate (k : Nat) :
    ((replicate k ((0, 0) : Nat × Nat)).map fun x => nPages x.2).sum = 0 := by
  have hzero : nPages 0 = 0 := by decide +kernel
  rw [map_replicate, hzero, sum_replicate, smul_zero]

theorem u64_sub64_add {n k : Nat} (hn : n < 2^64) : u64 (sub64 n k + k) = n := by
  unfold u64 sub64
  omega

theorem Words.pages_eq_iff (h : Words b map) (mem : Nat → BitVec 64)
    (hall : ∀ seg ∈ map, segmentInvalid b 0 seg = false →
      segmentInvalid b (physallocInit b map mem).memoryStart seg = false) :
    u64 ((physallocInit b map mem).pageCount + bitmapPages (countedPages b map)) =
        toU64 ((readTable (physallocInit b map mem).mem (physallocInit b map mem).segmentCount
          (physallocInit b map mem).pageStart).map fun x => nPages x.2).sum ↔
      toU64 ((map.filter fun seg => !segmentInvalid b 0 seg).map
          fun seg => nPages (clampSegment b 0 seg).2).sum =
        toU64 ((map.filter fun seg => !segmentInvalid b 0 seg).map
          fun seg => nPages (clampSegment b (physallocInit b map mem).memoryStart seg).2).sum := by
  have hcount : (physallocInit b map mem).pageCount =
      sub64 (countedPages b map) (bitmapPages (countedPages b map)) := rfl
  have hpages : countedPages b map = toU64 ((map.filter fun seg => !segmentInvalid b 0 seg).map
      fun seg => nPages (clampSegment b 0 seg).2).sum := by
    rw [countedPages, countPass_fst_toU64 b map 0 0 (by decide), clamped, map_map]
    rw [Nat.cast_zero, Int.zero_add]
    rfl
  have hms : (physallocInit b map mem).memoryStart =
      bootMemoryStart b (countedPages b map) (countedSegments b map) := rfl
  rw [hms] at hall ⊢
  rw [hcount, u64_sub64_add (countedPages_lt b map),
    readTable_physallocInit b map mem (h.clamped_lt _ _), map_append, sum_append, sum_nPages_replicate, Int.add_zero, clamped_eq_map hall,
    map_map, hpages]
  rfl

/-- Both passes agree exactly when every entry the first one counts is counted alike
by the second one. -/
theorem passes_agree_iff (b : Boot) (map : List Segment) (mem : Nat → BitVec 64)
    (hwords : Words b map) (hdisjoint : DisjointMap map) :
    PassesAgree b map (physallocInit b map mem) ↔
      ∀ seg ∈ map, segmentInvalid b 0 seg = false →
        CountedAlike b (bootMemoryStart b (countedPages b map) (countedSegments b map)) seg := by
  have hms : (physallocInit b map mem).memoryStart =
      bootMemoryStart b (countedPages b map) (countedSegments b map) := rfl
  have hsegs : (physallocInit b map mem).segmentCount = (clamped b 0 map).length := by
    change (countPass b map 0 0).2 = _
    rw [countPass_snd, zero_add]
  have hlength : (clamped b (physallocInit b map mem).memoryStart map).length =
      (physallocInit b map mem).segmentCount ↔ ∀ seg ∈ map, segmentInvalid b 0 seg = false →
        segmentInvalid b (physallocInit b map mem).memoryStart seg = false := by
    rw [hsegs]
    exact clamped_length_eq_iff b _ map
  rw [← hms]
  constructor
  · rintro ⟨hsegments, hcounted, hwritten, hpages⟩ seg hseg hvalid
    have hall := hlength.mp hsegments
    have hsum := (hwords.pages_eq_iff mem hall).mp hpages
    -- two entries counted differently would share the byte below the higher bound
    have hone : (map.filter fun seg => !segmentInvalid b 0 seg).Pairwise fun x y =>
        nPages (clampSegment b 0 x).2 =
            nPages (clampSegment b (physallocInit b map mem).memoryStart x).2 ∨
          nPages (clampSegment b 0 y).2 =
            nPages (clampSegment b (physallocInit b map mem).memoryStart y).2 := by
      refine (Pairwise.filter _ hdisjoint).imp_of_mem fun {x y} hx hy hxy => ?_
      obtain ⟨hxmem, hxv⟩ := mem_filter.mp hx
      obtain ⟨hymem, hyv⟩ := mem_filter.mp hy
      have hx0 : segmentInvalid b 0 x = false := by simpa using hxv
      have hy0 : segmentInvalid b 0 y = false := by simpa using hyv
      by_contra hboth
      obtain ⟨hxne, hyne⟩ := not_or.mp hboth
      exact hxy _ ⟨straddles_of_pages_ne (hcounted x hxmem hx0)
          (hwritten x hxmem (hall x hxmem hx0)) hxne,
        straddles_of_pages_ne (hcounted y hymem hy0) (hwritten y hymem (hall y hymem hy0)) hyne⟩
    have hterms := terms_eq_of_toU64_sum_eq _ _ hone (fun _ => nPages_int _)
      (fun _ => nPages_int _) hsum
    exact ⟨(segmentInvalid_zero hvalid).mp (hall seg hseg hvalid), hcounted seg hseg hvalid,
      hwritten seg hseg (hall seg hseg hvalid),
      hterms seg (mem_filter.mpr ⟨hseg, by simp [hvalid]⟩)⟩
  · intro halike
    have hall : ∀ seg ∈ map, segmentInvalid b 0 seg = false →
        segmentInvalid b (physallocInit b map mem).memoryStart seg = false :=
      fun seg hseg hvalid => (segmentInvalid_zero hvalid).mpr (halike seg hseg hvalid).reaches
    refine ⟨hlength.mpr hall, fun seg hseg hvalid => (halike seg hseg hvalid).image,
      fun seg hseg hvalid => (halike seg hseg (segmentInvalid_mono hvalid)).start,
      (hwords.pages_eq_iff mem hall).mpr ?_⟩
    congr 2
    refine map_congr_left fun seg hseg => ?_
    obtain ⟨hmem, hvalid⟩ := mem_filter.mp hseg
    exact (halike seg hmem (by simpa using hvalid)).pages

/-- An entry behind everything `physalloc_init` places is counted alike. -/
theorem passes_agree_far : PassesAgree smallBoot [⟨0x400000, 0x200000, .free⟩]
    (physallocInit smallBoot [⟨0x400000, 0x200000, .free⟩] fun _ => 0#64) := by
  refine (passes_agree_iff smallBoot _ _ ⟨by decide, by decide⟩
    (pairwise_singleton _ _)).mpr ?_
  intro seg hseg _
  rw [mem_singleton.mp hseg]
  exact ⟨by decide +kernel, by unfold ClampExact; decide +kernel,
    by unfold ClampExact; decide +kernel, by decide +kernel⟩

/-- The entry the kernel is loaded in: the bitmap and the table are counted as its
pages and then clamped away. -/
theorem passes_differ : Words smallBoot smallMap ∧ DisjointMap smallMap ∧
    ¬ PassesAgree smallBoot smallMap smallPhys := by
  refine ⟨⟨by decide, by decide⟩, pairwise_singleton _ _, fun h => ?_⟩
  have hcounted : u64 (smallPhys.pageCount + bitmapPages (countedPages smallBoot smallMap)) =
      256 := by decide +kernel
  have htable : toU64 ((readTable smallPhys.mem smallPhys.segmentCount smallPhys.pageStart).map
      fun x => nPages x.2).sum = 254 := by decide +kernel
  have hpages := h.pages
  rw [hcounted, htable] at hpages
  cases hpages

end Comus.PhysAlloc
