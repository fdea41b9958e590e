import Comus.Memory.PhysRuns

/-!
# The allocator after physalloc_init

For an ordered memory map both passes are exact: the first one counts pages
without wrapping and the second one leaves an ascending table. The invariant of
the runs holds of the initial state, hence of every state a sound run reaches.
-/

namespace Comus.PhysAlloc

open Word Option List

variable {b : Boot} {ms n : Nat} {seg : Segment} {map : List Segment}

def clampStart (b : Boot) (memoryStart : Nat) : Nat :=
  if memoryStart ≠ 0 then memoryStart else kernelRealEnd b

theorem usable_of_valid (h : segmentInvalid b ms seg = false) : Usable b seg ∧ ms ≤ u64 (seg.addr + seg.len) := by
  simp only [segmentInvalid, Bool.or_eq_false_iff, decide_eq_false_iff_not] at h
  obtain ⟨⟨⟨⟨hlen, htype⟩, hlow⟩, hstart⟩, -⟩ := h
  exact ⟨⟨not_not.mp htype, by omega, by omega⟩, by omega⟩

theorem clampSegment_eq (hend : clampStart b ms ≤ seg.addr + seg.len) (hlt : seg.addr + seg.len < 2^64) :
    clampSegment b ms seg = (max seg.addr (clampStart b ms),
      seg.addr + seg.len - max seg.addr (clampStart b ms)) := by
  have hdef : clampSegment b ms seg = if seg.addr < clampStart b ms then
      (clampStart b ms, sub64 seg.len (clampStart b ms - seg.addr)) else (seg.addr, seg.len) := rfl
  rw [hdef]
  by_cases h : seg.addr < clampStart b ms
  · rw [if_pos h, max_eq_right (Nat.le_of_lt h), sub64_of_le (by omega) (by omega)]
    congr 1
    omega
  · rw [if_neg h, max_eq_left (by omega)]
    congr 1
    omega

theorem OrderedMap.clamped_mem (h : OrderedMap b map) {x : Nat × Nat} (hx : x ∈ clamped b ms map) :
    ∃ seg ∈ map, Usable b seg ∧ x.1 = max seg.addr (clampStart b ms) ∧
      x.1 + x.2 = seg.addr + seg.len ∧ Short x.2 := by
  obtain ⟨seg, hseg, rfl⟩ := mem_map.mp hx
  obtain ⟨hmem, hvalid⟩ := mem_filter.mp hseg
  obtain ⟨husable, hms⟩ := usable_of_valid (by simpa using hvalid)
  have hbound := h.bound seg hmem husable
  have hclear := h.clear seg hmem husable
  have hshort := h.short seg hmem husable
  rw [u64_of_lt (by omega)] at hms
  have hend : clampStart b ms ≤ seg.addr + seg.len := by
    unfold clampStart
    split_ifs <;> omega
  rw [clampSegment_eq hend (by omega)]
  unfold Short at *
  exact ⟨seg, hmem, husable, rfl, by omega, by simp only; omega⟩

theorem countPass_fst (b : Boot) (map : List Segment) (pc sc : Nat)
    (hshort : ∀ x ∈ clamped b 0 map, Short x.2) (hroom : pc + 2^31 * map.length < 2^64) :
    (countPass b map pc sc).1 = pc + ((clamped b 0 map).map fun x => pagesOf x.2).sum := by
  induction map generalizing pc sc with
  | nil => rfl
  | cons seg map ih =>
    rw [clamped_cons] at hshort ⊢
    rw [length_cons] at hroom
    rw [countPass]
    split_ifs at hshort ⊢ with hinv
    · exact ih pc sc hshort (by omega)
    · have hx := hshort _ mem_cons_self
      have hlt := pagesOf_lt hx
      have hstep : toU64 ((pc : Int) + nPages (clampSegment b 0 seg).2) =
          pc + pagesOf (clampSegment b 0 seg).2 := by
        rw [nPages_of_short hx, ← Int.natCast_add, toU64_natCast, u64_of_lt (by omega)]
      rw [hstep, ih _ _ (fun x hx => hshort x (mem_cons_of_mem _ hx)) (by omega),
        map_cons, sum_cons]
      omega

theorem sum_pagesOf_le {xs : List (Nat × Nat)} (h : ∀ x ∈ xs, Short x.2) :
    (xs.map fun x => pagesOf x.2).sum ≤ 2^31 * xs.length := by
  induction xs with
  | nil => exact le_rfl
  | cons x xs ih =>
    have hx := pagesOf_lt (h x mem_cons_self)
    have hxs := ih fun y hy => h y (mem_cons_of_mem _ hy)
    rw [map_cons, sum_cons, length_cons]
    omega

theorem clamped_length_le_map (b : Boot) (ms : Nat) (map : List Segment) :
    (clamped b ms map).length ≤ map.length := by
  rw [clamped, length_map]
  exact length_filter_le _ _

theorem OrderedMap.countedPages_eq (h : OrderedMap b map) :
    countedPages b map = ((clamped b 0 map).map fun x => pagesOf x.2).sum := by
  have hcount := h.count
  have hshort : ∀ x ∈ clamped b 0 map, Short x.2 := fun x hx => by
    obtain ⟨_, _, _, _, _, hs⟩ := h.clamped_mem hx
    exact hs
  rw [countedPages, countPass_fst b map 0 0 hshort (by omega), zero_add]

theorem OrderedMap.countedPages_le (h : OrderedMap b map) :
    countedPages b map ≤ 2^39 := by
  have hshort : ∀ x ∈ clamped b 0 map, Short x.2 := fun x hx => by
    obtain ⟨_, _, _, _, _, hs⟩ := h.clamped_mem hx
    exact hs
  have hsum := sum_pagesOf_le hshort
  have hlen := clamped_length_le_map b 0 map
  have hcount := h.count
  rw [h.countedPages_eq]
  omega

theorem OrderedMap.countedPages_pos (h : OrderedMap b map) :
    0 < countedPages b map := by
  obtain ⟨seg, hmem, husable, hend⟩ := h.nonempty
  have hbound := h.bound seg hmem husable
  obtain ⟨htype, hlen, hlow⟩ := husable
  have hstart : clampStart b 0 = kernelRealEnd b := rfl
  have hvalid : segmentInvalid b 0 seg = false := by
    simp only [segmentInvalid, Bool.or_eq_false_iff, decide_eq_false_iff_not]
    rw [u64_of_lt (by omega)]
    exact ⟨⟨⟨⟨by omega, not_not.mpr htype⟩, by omega⟩, by omega⟩, by omega⟩
  have hin : clampSegment b 0 seg ∈ clamped b 0 map :=
    mem_map.mpr ⟨seg, mem_filter.mpr ⟨hmem, by simp [hvalid]⟩, rfl⟩
  have hpos : 0 < pagesOf (clampSegment b 0 seg).2 := by
    rw [clampSegment_eq (by omega) (by omega)]
    unfold pagesOf
    simp only
    omega
  have hle := le_sum_of_mem
    (mem_map.mpr ⟨_, hin, rfl⟩ :
      pagesOf (clampSegment b 0 seg).2 ∈ (clamped b 0 map).map fun x => pagesOf x.2)
  rw [h.countedPages_eq]
  omega

theorem bitmapPages_le (h : 0 < n) : bitmapPages n ≤ n := by
  unfold bitmapPages PAGE_SIZE
  omega

theorem alignUp_le {m x : Nat} (hm : 0 < m) (h : x + m < 2^64) : alignUp m x ≤ x + m := by
  have hu : u64 (x + m - 1) = x + m - 1 := u64_of_lt (by omega)
  unfold alignUp
  rw [hu]
  exact Nat.le_trans (Nat.div_mul_le_self _ _) (by omega)

theorem bootMemoryStart_aligned {k : Nat} (hkernel : kernelRealEnd b < 2^52)
    (htables : b.tablePages < 2^40) (hn : n < 2^64) (hk : k ≤ 256) :
    0 < bootMemoryStart b n k ∧ bootMemoryStart b n k % 4096 = 0 := by
  have hsize : bitmapSize n ≤ 2^59 := by
    unfold bitmapSize bitmapPages PAGE_SIZE
    omega
  have hsize0 : 4096 ≤ bitmapSize n := by
    unfold bitmapSize bitmapPages PAGE_SIZE
    omega
  unfold bootMemoryStart pageAreaAddr PAGE_SIZE
  generalize hA : alignUp 4096 (kernelRealEnd b) = A
  have hA1 : A ≤ kernelRealEnd b + 4096 := hA ▸ alignUp_le (by decide) (by omega)
  generalize hB : u64 (A + bitmapSize n) = B
  have hB1 : B = A + bitmapSize n := hB ▸ u64_of_lt (by omega)
  generalize hC : alignUp 4096 B = C
  have hC1 : C ≤ B + 4096 := hC ▸ alignUp_le (by decide) (by omega)
  have hC2 : B ≤ C := hC ▸ le_alignUp (by decide) (by omega)
  generalize hD : u64 (C + k * segSize) = D
  have hD1 : D = C + k * 24 := hD ▸ u64_of_lt (by unfold segSize; omega)
  generalize hE : alignUp 4096 D = E
  have hE1 : E ≤ D + 4096 := hE ▸ alignUp_le (by decide) (by omega)
  have hE2 : D ≤ E := hE ▸ le_alignUp (by decide) (by omega)
  have hE3 : E % 4096 = 0 := Nat.mod_eq_zero_of_dvd (hE ▸ alignUp_dvd 4096 D)
  rw [u64_of_lt (by omega)]
  omega

theorem countedSegments_le (hcount : map.length ≤ 256) :
    countedSegments b map ≤ 256 := by
  have hlen := clamped_length_le_map b 0 map
  rw [countedSegments, countPass_snd]
  omega

theorem bootMemoryStart_spec (h : OrderedMap b map) (hb : BootOk b map) :
    0 < bootMemoryStart b (countedPages b map) (countedSegments b map) ∧
      bootMemoryStart b (countedPages b map) (countedSegments b map) % 4096 = 0 := by
  have hpages := h.countedPages_le
  exact bootMemoryStart_aligned hb.kernel hb.tables (by omega) (countedSegments_le h.count)

theorem OrderedMap.clamped_ascending (h : OrderedMap b map) (hpos : 0 < ms) (hal : ms % 4096 = 0) :
    (∀ x ∈ clamped b ms map, SegOk x ∧ x.1 % 4096 = 0 ∧ 0 < x.1 ∧ x.1 < 2^64 ∧ x.2 < 2^64) ∧
      Ascending (clamped b ms map) := by
  have hstart : clampStart b ms = ms := if_pos (by omega)
  constructor
  · intro x hx
    obtain ⟨seg, hmem, husable, hx1, hx2, hshort⟩ := h.clamped_mem hx
    have hbound := h.bound seg hmem husable
    have haligned := h.aligned seg hmem husable
    rw [hstart] at hx1
    have hpages := pagesOf_lt hshort
    refine ⟨⟨hshort, by omega⟩, by omega, by omega, by omega, by omega⟩
  · refine pairwise_map.mpr ?_
    refine (h.ordered.filter _).imp_of_mem ?_
    intro s t hs ht hst _
    obtain ⟨hsmem, hsv⟩ := mem_filter.mp hs
    obtain ⟨htmem, htv⟩ := mem_filter.mp ht
    obtain ⟨hsu, hsm⟩ := usable_of_valid (by simpa using hsv)
    obtain ⟨htu, htm⟩ := usable_of_valid (by simpa using htv)
    have hs1 := h.bound s hsmem hsu
    have ht1 := h.bound t htmem htu
    have hs2 := h.aligned s hsmem hsu
    have ht2 := h.aligned t htmem htu
    rw [u64_of_lt (by omega)] at hsm htm
    rw [clampSegment_eq (by omega) (by omega), clampSegment_eq (by omega) (by omega), hstart]
    have hle := hst hsu htu
    unfold pagesOf
    simp only
    omega

theorem physallocInit_mem_bitmap (hb : BootOk b map)
    (mem : Nat → BitVec 64) {a : Nat} (hlo : b.bitmapVirt ≤ a)
    (hhi : a < b.bitmapVirt + bitmapSize (countedPages b map)) :
    (physallocInit b map mem).mem a = 0#64 := by
  change writePass b _ map b.areaVirt (zeroArea (zeroArea mem b.bitmapVirt
    (bitmapSize (countedPages b map))) b.areaVirt (countedSegments b map * segSize)) a = 0#64
  have hcleared : zeroArea (zeroArea mem b.bitmapVirt (bitmapSize (countedPages b map)))
      b.areaVirt (countedSegments b map * segSize) a = 0#64 := by
    unfold zeroArea
    split_ifs <;> first | rfl | omega
  rcases hb.apart with hbelow | habove
  · rw [writePass_below _ _ _ _ _ (by omega)]
    exact hcleared
  · have hlen := clamped_length_le b
      (bootMemoryStart b (countPass b map 0 0).1 (countPass b map 0 0).2) map
    have hsegs : countedSegments b map = (clamped b 0 map).length := by
      rw [countedSegments, countPass_snd, zero_add]
    unfold segSize at habove
    rw [writePass_above _ _ _ _ _ (by unfold segSize; omega)]
    exact hcleared

theorem readTable_physallocInit (b : Boot) (map : List Segment) (mem : Nat → BitVec 64)
    (hlt : ∀ x ∈ clamped b (bootMemoryStart b (countedPages b map) (countedSegments b map)) map,
      x.1 < 2^64 ∧ x.2 < 2^64) :
    readTable (physallocInit b map mem).mem (physallocInit b map mem).segmentCount
        (physallocInit b map mem).pageStart =
      clamped b (bootMemoryStart b (countedPages b map) (countedSegments b map)) map ++
        replicate (countedSegments b map -
          (clamped b (bootMemoryStart b (countedPages b map) (countedSegments b map)) map).length)
          (0, 0) := by
  refine readTable_writePass b _ map b.areaVirt (countedSegments b map) _ ?_ ?_ hlt
  · rw [countedSegments, countPass_snd, zero_add]
    exact clamped_length_le b _ map
  · intro a hlo hhi
    unfold zeroArea
    rw [mul_comm] at hhi
    exact if_pos ⟨hlo, hhi⟩

theorem physallocInit_clear (hb : BootOk b map)
    (mem : Nat → BitVec 64) {i : Nat} (hi : i < bitmapCapacity b map) :
    bitmapGet (physallocInit b map mem) i = false := by
  have hlt : 8 * (i / 64) < bitmapSize (countedPages b map) := by
    unfold bitmapCapacity bitmapSize PAGE_SIZE at *
    omega
  rw [bitmapGet_eq_getLsbD]
  change ((physallocInit b map mem).mem (b.bitmapVirt + 8 * (i / 64))).getLsbD _ = false
  rw [physallocInit_mem_bitmap hb mem (by omega) (by omega)]
  exact BitVec.getLsbD_zero

theorem physallocInit_uniform (hb : BootOk b map)
    (mem : Nat → BitVec 64) {w : Nat} (hw : 64 * w < bitmapCapacity b map) :
    Uniform (physallocInit b map mem) w := by
  intro i j hi hj _ _
  have hcap : 64 * w + 63 < bitmapCapacity b map := by
    unfold bitmapCapacity bitmapSize PAGE_SIZE at *
    omega
  rw [physallocInit_clear hb mem (by omega), physallocInit_clear hb mem (by omega)]

theorem physallocInit_areas (hb : BootOk b map)
    (mem : Nat → BitVec 64) : AreasApart (bitmapCapacity b map) (physallocInit b map mem) := by
  intro a i hlo hhi hi heq
  change b.areaVirt ≤ a at hlo
  change a < b.areaVirt + segSize * countedSegments b map at hhi
  change a = b.bitmapVirt + 8 * (i / 64) at heq
  have hlt : 8 * (i / 64) < bitmapSize (countedPages b map) := by
    unfold bitmapCapacity bitmapSize PAGE_SIZE at *
    omega
  rw [mul_comm] at hhi
  rcases hb.apart with hap | hap <;> omega

theorem physallocInit_table (h : OrderedMap b map)
    (hb : BootOk b map) (mem : Nat → BitVec 64) : TableOk (physallocInit b map mem) := by
  obtain ⟨hms0, hms1⟩ := bootMemoryStart_spec h hb
  obtain ⟨hclamped, hasc⟩ := h.clamped_ascending hms0 hms1
  have hread := readTable_physallocInit b map mem fun x hx => (hclamped x hx).2.2.2
  have hempty : ∀ x ∈ replicate (countedSegments b map -
      (clamped b (bootMemoryStart b (countedPages b map) (countedSegments b map)) map).length)
      ((0, 0) : Nat × Nat), x = (0, 0) := fun x hx => eq_of_mem_replicate hx
  have hpages := h.countedPages_le
  have hpos := h.countedPages_pos
  have hbp := bitmapPages_le hpos
  refine ⟨?_, ?_, ?_, ?_, ?_⟩
  · change sub64 (countedPages b map) (bitmapPages (countedPages b map)) < 2^39
    rw [sub64_of_le hbp (by omega)]
    have : 0 < bitmapPages (countedPages b map) := Nat.succ_pos _
    omega
  all_goals rw [hread]
  · intro x hx
    rcases mem_append.mp hx with hx | hx
    · exact (hclamped x hx).1
    · rw [hempty x hx]
      exact ⟨by unfold Short; omega, by unfold pagesOf; omega⟩
  · intro x hx
    rcases mem_append.mp hx with hx | hx
    · exact (hclamped x hx).2.1
    · rw [hempty x hx, Nat.zero_mod]
  · intro x hx hp
    rcases mem_append.mp hx with hx | hx
    · exact (hclamped x hx).2.2.1
    · rw [hempty x hx] at hp
      cases hp
  · refine pairwise_append.mpr ⟨hasc, ?_, ?_⟩
    · refine pairwise_of_forall_mem_list ?_
      intro x _ y hy hp
      rw [hempty y hy] at hp
      cases hp
    · intro x _ y hy hp
      rw [hempty y hy] at hp
      cases hp

theorem physallocInit_good (h : OrderedMap b map) (hb : BootOk b map) (mem : Nat → BitVec 64) :
    Good (bitmapCapacity b map) (memoryFree (physallocInit b map mem))
      ⟨physallocInit b map mem, []⟩ := by
  have htable := physallocInit_table h hb mem
  have hcnt := htable.count
  have hfree : memoryFree (physallocInit b map mem) =
      4096 * (physallocInit b map mem).pageCount := by
    change u64 ((physallocInit b map mem).pageCount * PAGE_SIZE) = _
    unfold PAGE_SIZE
    rw [u64_of_lt (by omega), mul_comm]
  refine ⟨[], Perm.refl _, ⟨hb.bitmap, hb.area, physallocInit_areas hb mem, htable, hfree,
    fun w hw => physallocInit_uniform hb mem hw, ?_, ?_, ?_, ?_, ?_⟩⟩
  · exact fun b hb => absurd hb not_mem_nil
  · exact fun b hb => absurd hb not_mem_nil
  · exact Pairwise.nil
  · exact Pairwise.nil
  · rfl

theorem bitmapCapacity_le (h : OrderedMap b map) :
    bitmapCapacity b map ≤ 2^64 := by
  have := h.countedPages_le
  unfold bitmapCapacity bitmapSize bitmapPages PAGE_SIZE
  omega

/-- In every state of a run whose calls stay clear of the defects no physical page
is handed out twice and the free-memory counter accounts for every outstanding page. -/
theorem sound_run_accounted (b : Boot) (map : List Segment) (mem : Nat → BitVec 64)
    (hmap : OrderedMap b map) (hboot : BootOk b map) (r : RunState)
    (hrun : Run.Reach step (Sound (bitmapCapacity b map)) ⟨physallocInit b map mem, []⟩ r) :
    Accounted (physallocInit b map mem) r :=
  (hrun.invariant (physallocInit_good hmap hboot mem)
    (Good.step (bitmapCapacity_le hmap))).accounted

/-! ## A map on which the masks matter

One free segment of two megabytes, the kernel in its first half. -/

def smallBoot : Boot where
  kernelStart := 0x100000
  kernelEnd := 0x200000
  mbootEnd := 0x200000
  bitmapVirt := 0x1000000
  areaVirt := 0x1001000
  tablePages := 0

def smallMap : List Segment := [⟨0x100000, 0x200000, .free⟩]

def smallPhys : Phys := physallocInit smallBoot smallMap fun _ => 0#64

theorem smallMap_ordered : OrderedMap smallBoot smallMap where
  count := by decide
  aligned := by simp [smallMap]
  bound := by simp [smallMap]
  short := by simp [smallMap, Short]
  clear := by simp [smallMap, smallBoot, kernelRealEnd]
  ordered := by simp [smallMap]
  nonempty := ⟨_, mem_cons_self, ⟨rfl, by decide, by decide⟩, by decide⟩

theorem smallBoot_ok : BootOk smallBoot smallMap where
  kernel := by decide
  tables := by decide
  bitmap := by decide
  area := by decide
  apart := by decide +kernel

/-- Thirty-three pages from index 0 on are handed out and given back soundly. -/
theorem sound_run_accounted_small : ∃ r : RunState, r.out = [] ∧ Accounted smallPhys r := by
  have halloc : (step ⟨smallPhys, []⟩ (.alloc 33)).map RunState.out = some [(0x202000, 33)] := by
    decide +kernel
  obtain ⟨r, hr, hrout⟩ := map_eq_some_iff.mp halloc
  have hreach : Run.Reach step (Sound (bitmapCapacity smallBoot smallMap)) ⟨smallPhys, []⟩ r := by
    have hclear : ∀ t, t < 33 → bitmapGet smallPhys t = false := by decide +kernel
    have hwindow : Window smallPhys 33 0 :=
      ⟨by decide +kernel, by decide +kernel, fun t _ ht => hclear t (by omega)⟩
    exact .step (.alloc 33) .start (fun _ => ⟨0, by decide +kernel, hwindow⟩) hr
  have hphys : (step ⟨smallPhys, []⟩ (.alloc 33)).map (fun r =>
      (pageIdx r.phys 0x202000, pageAt r.phys 0)) = some (0, 0x202000) := by decide +kernel
  rw [hr] at hphys
  obtain ⟨hidx, hpage⟩ := Prod.mk.inj (some.inj hphys)
  have hfree : step r (.free 0x202000 33) =
      some ⟨freePhysPages r.phys 0x202000 33, r.out.erase (0x202000, 33)⟩ :=
    if_pos (hrout ▸ mem_cons_self)
  have hsound : Sound (bitmapCapacity smallBoot smallMap) r (.free 0x202000 33) :=
    ⟨0, hidx, hpage, fun i _ _ _ _ h0 => absurd h0 (Nat.not_lt_zero _)⟩
  have hreach' := hreach.step _ hsound hfree
  refine ⟨_, ?_, sound_run_accounted smallBoot smallMap _ smallMap_ordered smallBoot_ok _ hreach'⟩
  simp [hrout]

/-- Freeing thirty-two pages from index 1 on also clears the bit of page 0, which is
then handed out a second time. -/
theorem narrow_mask_hands_out_twice :
    OrderedMap smallBoot smallMap ∧ BootOk smallBoot smallMap ∧
      ∃ r, Run.Reach step Run.anyOp ⟨smallPhys, []⟩ r ∧ ¬ Accounted smallPhys r := by
  refine ⟨smallMap_ordered, smallBoot_ok, ?_⟩
  have hout : (Run.exec step ⟨smallPhys, []⟩
      [.alloc 1, .alloc 32, .free 0x203000 32, .alloc 1]).map RunState.out =
        some [(0x202000, 1), (0x202000, 1)] := by decide +kernel
  obtain ⟨r, hexec, hr⟩ := map_eq_some_iff.mp hout
  refine ⟨r, Run.Reach.start.exec hexec, fun hacc => ?_⟩
  have hsep := hacc.1
  rw [hr] at hsep
  exact (pairwise_cons.mp hsep).1 _ mem_cons_self 0x202
    ⟨⟨by decide, by decide⟩, ⟨by decide, by decide⟩⟩

end Comus.PhysAlloc
