import Comus.Memory.BootMap

/-!
# Searching the tags of the boot information (locate_mboot_table)

The step from one tag to the next is read from the tag, converted to `int` and rounded. A
size of zero does not move the pointer, one of 2 GiB or more moves it backwards, and a tag
may begin in the last bytes of the block. `Search` is the walk that stays inside the block.
-/

namespace Comus.BootMap

open Word Bytes Option List Function

variable {m : Memory} {mboot type p r t : Nat} {ts pre post : List Nat}

def totalSize (m : Memory) (mboot : Nat) : Nat := loadLe m mboot 4

def tagType (m : Memory) (p : Nat) : Nat := loadLe m p 4

def tagSize (m : Memory) (p : Nat) : Nat := loadLe m (p + 4) 4

def nextTag (m : Memory) (p : Nat) : Nat := toU64 (p + tagStride (toI32 (tagSize m p)))

/-- The block, with the padding of its last tag, is part of the address space. -/
structure Block (m : Memory) (mboot : Nat) : Prop where
  present : mboot ≠ 0
  fits : mboot + totalSize m mboot + 8 ≤ 2^64
  start : mboot + 8 < 2^64

def HeaderIn (m : Memory) (mboot p : Nat) : Prop := mboot + 8 ≤ p ∧ p + 8 ≤ mboot + totalSize m mboot

def examined (m : Memory) (type mbootEnd : Nat) : Nat → Nat → List Nat
  | 0, _ => []
  | fuel + 1, p =>
    if p < mbootEnd then p :: if tagType m p = type then [] else examined m type mbootEnd fuel (nextTag m p)
    else []

def TagList (m : Memory) (mboot : Nat) : Nat → List Nat → Prop
  | p, [] => mboot + totalSize m mboot ≤ p
  | p, t :: ts => t = p ∧ 8 ≤ tagSize m p ∧ p + tagSize m p ≤ mboot + totalSize m mboot ∧
    TagList m mboot (p + (tagSize m p + 7) / 8 * 8) ts

def firstTag (m : Memory) (type : Nat) (ts : List Nat) : Nat :=
  (ts.find? fun t => decide (tagType m t = type)).getD 0

/-- The search ends, reads headers inside the block only, and finds the first tag of the type
if the block is a list of tags. -/
def Locates (m : Memory) (mboot type : Nat) : Prop :=
  ∃ fuel r, locateMbootTable m mboot type fuel = some r ∧
    (∀ p ∈ examined m type (mboot + totalSize m mboot) fuel (mboot + 8), HeaderIn m mboot p) ∧
    ∀ ts, TagList m mboot (mboot + 8) ts → r = firstTag m type ts

/-- Following the sizes, all headers are inside the block up to the first one of the type or
to the end of the block. -/
def Chained (m : Memory) (mboot type : Nat) : Prop :=
  ∃ n, (∀ k, k < n → HeaderIn m mboot ((nextTag m)^[k] (mboot + 8)) ∧
      tagType m ((nextTag m)^[k] (mboot + 8)) ≠ type) ∧
    (mboot + totalSize m mboot ≤ (nextTag m)^[n] (mboot + 8) ∨
      HeaderIn m mboot ((nextTag m)^[n] (mboot + 8)) ∧ tagType m ((nextTag m)^[n] (mboot + 8)) = type)

def ShortBefore (m : Memory) (mboot type : Nat) : Prop :=
  ∀ pre t post, TagList m mboot (mboot + 8) (pre ++ t :: post) → tagType m t = type →
    (∀ u ∈ pre, tagType m u ≠ type) → ∀ u ∈ pre, tagSize m u ≤ 2^31 - 8

inductive Search (m : Memory) (mboot type : Nat) : Nat → Nat → Prop where
  | stop {p : Nat} : mboot + totalSize m mboot ≤ p → Search m mboot type p 0
  | found {p : Nat} : HeaderIn m mboot p → tagType m p = type → Search m mboot type p p
  | next {p r : Nat} : HeaderIn m mboot p → tagType m p ≠ type → Search m mboot type (nextTag m p) r →
      Search m mboot type p r

theorem HeaderIn.lt (h : HeaderIn m mboot p) : p < mboot + totalSize m mboot :=
  Nat.lt_of_lt_of_le (Nat.lt_add_of_pos_right (by decide)) h.2

theorem locateLoop_succ (m : Memory) (type mbootEnd fuel p : Nat) :
    locateLoop m type mbootEnd (fuel + 1) p =
      if p < mbootEnd then
        if tagType m p = type then some p else locateLoop m type mbootEnd fuel (nextTag m p)
      else some 0 := rfl

theorem search_iff : Search m mboot type p r ↔
    ∃ fuel, locateLoop m type (mboot + totalSize m mboot) fuel p = some r ∧
      ∀ q ∈ examined m type (mboot + totalSize m mboot) fuel p, HeaderIn m mboot q := by
  constructor
  · intro h
    induction h with
    | stop hend =>
      refine ⟨1, ?_, ?_⟩
      · rw [locateLoop_succ, if_neg (not_lt.mpr hend)]
      · rw [examined, if_neg (not_lt.mpr hend)]
        exact fun q hq => absurd hq not_mem_nil
    | found hin htype =>
      refine ⟨1, ?_, ?_⟩
      · rw [locateLoop_succ, if_pos hin.lt, if_pos htype]
      · rw [examined, if_pos hin.lt, if_pos htype]
        simpa using hin
    | next hin htype _ ih =>
      obtain ⟨fuel, hrun, hexamined⟩ := ih
      refine ⟨fuel + 1, ?_, ?_⟩
      · rw [locateLoop_succ, if_pos hin.lt, if_neg htype]
        exact hrun
      · rw [examined, if_pos hin.lt, if_neg htype]
        exact forall_mem_cons.mpr ⟨hin, hexamined⟩
  · rintro ⟨fuel, hrun, hexamined⟩
    induction fuel generalizing p with
    | zero => cases hrun
    | succ fuel ih =>
      rw [locateLoop_succ] at hrun
      rw [examined] at hexamined
      by_cases hlt : p < mboot + totalSize m mboot
      · rw [if_pos hlt] at hrun hexamined
        have hin : HeaderIn m mboot p := hexamined p mem_cons_self
        by_cases htype : tagType m p = type
        · rw [if_pos htype] at hrun
          cases hrun
          exact .found hin htype
        · rw [if_neg htype] at hrun hexamined
          exact .next hin htype (ih hrun fun q hq => hexamined q (mem_cons_of_mem _ hq))
      · rw [if_neg hlt] at hrun
        cases hrun
        exact .stop (not_lt.mp hlt)

theorem chained_iff : Chained m mboot type ↔ ∃ r, Search m mboot type (mboot + 8) r := by
  unfold Chained
  generalize mboot + 8 = p
  constructor
  · rintro ⟨n, hbefore, hlast⟩
    induction n generalizing p with
    | zero =>
      rw [iterate_zero_apply] at hlast
      rcases hlast with hend | ⟨hin, htype⟩
      · exact ⟨0, .stop hend⟩
      · exact ⟨p, .found hin htype⟩
    | succ n ih =>
      obtain ⟨hin, htype⟩ := hbefore 0 (Nat.succ_pos n)
      rw [iterate_zero_apply] at hin htype
      obtain ⟨r, hr⟩ := ih (nextTag m p)
        (fun k hk => by
          have := hbefore (k + 1) (Nat.succ_lt_succ hk)
          rwa [iterate_succ_apply] at this)
        (by rwa [iterate_succ_apply] at hlast)
      exact ⟨r, .next hin htype hr⟩
  · rintro ⟨r, h⟩
    induction h with
    | stop hend => exact ⟨0, fun k hk => absurd hk (Nat.not_lt_zero k), .inl hend⟩
    | found hin htype => exact ⟨0, fun k hk => absurd hk (Nat.not_lt_zero k), .inr ⟨hin, htype⟩⟩
    | @next p r hin htype _ ih =>
      obtain ⟨n, hbefore, hlast⟩ := ih
      refine ⟨n + 1, ?_, ?_⟩
      · intro k hk
        cases k with
        | zero => exact ⟨hin, htype⟩
        | succ k =>
          rw [iterate_succ_apply]
          exact hbefore k (Nat.lt_of_succ_lt_succ hk)
      · rw [iterate_succ_apply]
        exact hlast

theorem Search.inside (h : Search m mboot type p r) :
    mboot + totalSize m mboot ≤ p ∨ HeaderIn m mboot p := by
  cases h with
  | stop hend => exact .inl hend
  | found hin _ => exact .inr hin
  | next hin _ _ => exact .inr hin

theorem Search.eq_zero_of_end (h : Search m mboot type p r) (hend : mboot + totalSize m mboot ≤ p) :
    r = 0 := by
  cases h with
  | stop _ => rfl
  | found hin _ => exact absurd hin.lt (not_lt.mpr hend)
  | next hin _ _ => exact absurd hin.lt (not_lt.mpr hend)

theorem tagSize_lt (m : Memory) (p : Nat) : tagSize m p < 2^32 := loadLe_lt m (p + 4) 4

theorem totalSize_lt (m : Memory) (mboot : Nat) : totalSize m mboot < 2^32 := loadLe_lt m mboot 4

theorem tagStride_short {size : Nat} (h : size ≤ 2^31 - 8) :
    tagStride (toI32 size) = ((size + 7) / 8 * 8 : Nat) := by
  rw [toI32_of_lt (by omega) (by omega)]
  unfold tagStride
  rw [Int.tmod_eq_emod_of_nonneg (by omega)]
  split_ifs with hmod
  · rw [toI32_of_lt (by omega) (by omega)]
    omega
  · omega

/-- A longer tag is a negative `int`, and the remainder of a negative `int` is not positive: the
rounding may add one step too many. -/
theorem tagStride_long {size : Nat} (h : 2^31 - 8 < size) (hlt : size < 2^32) :
    tagStride (toI32 size) = ((size + 7) / 8 * 8 : Nat) - 2^32 ∨
      size % 8 ≠ 0 ∧ tagStride (toI32 size) = ((size + 7) / 8 * 8 : Nat) - 2^32 + 8 := by
  rcases lt_or_ge size (2^31) with hint | hint
  · refine .inl ?_
    rw [toI32_of_lt (by omega) (by omega)]
    unfold tagStride
    rw [Int.tmod_eq_emod_of_nonneg (by omega), if_pos (by omega), toI32_of_ge (by omega) (by omega)]
    omega
  · have hneg : toI32 size = (size : Int) - 2^32 := toI32_of_ge (by omega) (by omega)
    have htmod : ((size : Int) - 2^32).tmod 8 = -((2^32 - (size : Int)) % 8) := by
      rw [← Int.neg_sub (2^32) (size : Int), Int.neg_tmod, Int.tmod_eq_emod_of_nonneg (by omega)]
    unfold tagStride
    rw [hneg, htmod]
    by_cases hmod : size % 8 = 0
    · refine .inl ?_
      rw [if_neg (by omega)]
      omega
    · refine .inr ⟨hmod, ?_⟩
      rw [if_pos (by omega)]
      unfold toI32
      omega

theorem nextTag_short (hblock : Block m mboot) (hin : p + tagSize m p ≤ mboot + totalSize m mboot)
    (hshort : tagSize m p ≤ 2^31 - 8) : nextTag m p = p + (tagSize m p + 7) / 8 * 8 := by
  have hfits := hblock.fits
  unfold nextTag
  rw [tagStride_short hshort, toU64_of_nonneg (by omega) (by omega)]
  omega

/-- From a longer tag the loop leaves the block or starts again. -/
theorem nextTag_long (hblock : Block m mboot) (hp : mboot + 8 ≤ p) (hdvd : 8 ∣ p - mboot)
    (hin : p + tagSize m p ≤ mboot + totalSize m mboot) (hlong : 2^31 - 8 < tagSize m p) :
    mboot + totalSize m mboot ≤ nextTag m p ∨ nextTag m p < mboot + 8 ∨ nextTag m p = mboot + 8 := by
  have hfits := hblock.fits
  have hsize := tagSize_lt m p
  have htotal := totalSize_lt m mboot
  unfold nextTag toU64
  rcases tagStride_long hlong hsize with heq | ⟨hmod, heq⟩
  · rw [heq]
    omega
  · rw [heq]
    omega

theorem TagList.le_of_mem {u : Nat} (h : TagList m mboot p ts) (hu : u ∈ ts) : p ≤ u := by
  induction ts generalizing p with
  | nil => exact absurd hu not_mem_nil
  | cons t ts ih =>
    obtain ⟨rfl, -, -, htail⟩ := h
    rcases mem_cons.mp hu with rfl | hu'
    · exact le_rfl
    · exact Nat.le_trans (Nat.le_add_right _ _) (ih htail hu')

def Hidden (m : Memory) (type : Nat) : List Nat → Prop
  | [] => True
  | t :: ts => tagType m t ≠ type ∧ (2^31 - 8 < tagSize m t ∨ Hidden m type ts)

theorem hidden_of_absent (h : ∀ u ∈ ts, tagType m u ≠ type) : Hidden m type ts := by
  induction ts with
  | nil => trivial
  | cons t ts ih =>
    obtain ⟨hhead, hrest⟩ := forall_mem_cons.mp h
    exact ⟨hhead, .inr (ih hrest)⟩

theorem hidden_of_long {u : Nat} (h : ∀ u ∈ pre, tagType m u ≠ type) (hu : u ∈ pre)
    (hlong : 2^31 - 8 < tagSize m u) : Hidden m type (pre ++ ts) := by
  induction pre with
  | nil => exact absurd hu not_mem_nil
  | cons t pre ih =>
    obtain ⟨hhead, hrest⟩ := forall_mem_cons.mp h
    refine ⟨hhead, ?_⟩
    rcases mem_cons.mp hu with rfl | hu'
    · exact .inl hlong
    · exact .inr (ih hrest hu')

theorem Search.eq_zero_of_hidden (h : Search m mboot type p r) (hblock : Block m mboot)
    {all : List Nat} (hall : TagList m mboot (mboot + 8) all) (hidden : Hidden m type all)
    (hts : TagList m mboot p ts) (hhid : Hidden m type ts) (hp : mboot + 8 ≤ p)
    (hdvd : 8 ∣ p - mboot) : r = 0 := by
  induction h generalizing ts with
  | stop _ => rfl
  | @found p hin htype =>
    cases ts with
    | nil => exact absurd hin.lt (not_lt.mpr hts)
    | cons t ts =>
      obtain ⟨rfl, -⟩ := hts
      exact absurd htype hhid.1
  | @next p r hin htype hrest ih =>
    cases ts with
    | nil => exact absurd hin.lt (not_lt.mpr hts)
    | cons t ts =>
      obtain ⟨rfl, hmin, hfit, htail⟩ := hts
      by_cases hshort : tagSize m t ≤ 2^31 - 8
      · have hnext := nextTag_short hblock hfit hshort
        refine ih (hnext ▸ htail : TagList m mboot _ ts) ?_ ?_ ?_
        · exact hhid.2.resolve_left (not_lt.mpr hshort)
        · rw [hnext]
          omega
        · rw [hnext]
          omega
      · -- Behind a long tag the walk is at the end, outside the block or at the first tag again.
        rcases nextTag_long hblock hp hdvd hfit (not_le.mp hshort) with hend | hlow | hstart
        · exact hrest.eq_zero_of_end hend
        · rcases hrest.inside with hend | hin'
          · exact hrest.eq_zero_of_end hend
          · exact absurd hin'.1 (not_le.mpr hlow)
        · refine ih (hstart ▸ hall : TagList m mboot _ all) hidden (Nat.le_of_eq hstart.symm) ?_
          rw [hstart]
          omega

theorem Search.eq_of_short (hblock : Block m mboot) (hpre : ∀ u ∈ pre, tagType m u ≠ type)
    (hshort : ∀ u ∈ pre, tagSize m u ≤ 2^31 - 8) (ht : tagType m t = type)
    (hts : TagList m mboot p (pre ++ t :: post)) (h : Search m mboot type p r) : r = t := by
  induction pre generalizing p with
  | nil =>
    obtain ⟨rfl, hmin, hfit, -⟩ := hts
    cases h with
    | stop hend => omega
    | found _ _ => rfl
    | next _ htype _ => exact absurd ht htype
  | cons u pre ih =>
    obtain ⟨rfl, hmin, hfit, htail⟩ := hts
    obtain ⟨hhead, hrest⟩ := forall_mem_cons.mp hpre
    obtain ⟨hsmall, hsmalls⟩ := forall_mem_cons.mp hshort
    cases h with
    | stop hend => omega
    | found _ htype => exact absurd htype hhead
    | next _ _ hsearch =>
      rw [nextTag_short hblock hfit hsmall] at hsearch
      exact ih hrest hsmalls htail hsearch

theorem locateMbootTable_block (hblock : Block m mboot) (type fuel : Nat) :
    locateMbootTable m mboot type fuel =
      locateLoop m type (mboot + totalSize m mboot) fuel (mboot + 8) := by
  have hfits := hblock.fits
  have hstart := hblock.start
  unfold locateMbootTable
  rw [if_neg hblock.present, u64_of_lt hstart]
  change locateLoop m type (u64 (mboot + totalSize m mboot)) fuel (mboot + 8) = _
  rw [u64_of_lt (by omega)]

theorem locates_iff_search (hblock : Block m mboot) : Locates m mboot type ↔
    ∃ r, Search m mboot type (mboot + 8) r ∧
      ∀ ts, TagList m mboot (mboot + 8) ts → r = firstTag m type ts := by
  constructor
  · rintro ⟨fuel, r, hrun, hin, hfirst⟩
    rw [locateMbootTable_block hblock] at hrun
    exact ⟨r, search_iff.mpr ⟨fuel, hrun, hin⟩, hfirst⟩
  · rintro ⟨r, hsearch, hfirst⟩
    obtain ⟨fuel, hrun, hin⟩ := search_iff.mp hsearch
    rw [← locateMbootTable_block hblock] at hrun
    exact ⟨fuel, r, hrun, hin, hfirst⟩

theorem firstTag_absent (h : ∀ u ∈ ts, tagType m u ≠ type) : firstTag m type ts = 0 := by
  unfold firstTag
  rw [find?_eq_none.mpr (by simpa using h), getD_none]

theorem firstTag_append (h : ∀ u ∈ pre, tagType m u ≠ type) (ht : tagType m t = type) :
    firstTag m type (pre ++ t :: post) = t := by
  unfold firstTag
  rw [find?_append, find?_eq_none.mpr (by simpa using h),
    find?_cons_of_pos (by simpa using ht)]
  rfl

theorem absent_or_first (m : Memory) (type : Nat) (ts : List Nat) :
    (∀ u ∈ ts, tagType m u ≠ type) ∨ ∃ pre t post, ts = pre ++ t :: post ∧ tagType m t = type ∧
      ∀ u ∈ pre, tagType m u ≠ type := by
  cases h : ts.find? fun t => decide (tagType m t = type) with
  | none => exact .inl (by simpa using find?_eq_none.mp h)
  | some t =>
    obtain ⟨ht, pre, post, rfl, hpre⟩ := find?_eq_some_iff_append.mp h
    exact .inr ⟨pre, t, post, rfl, by simpa using ht, by simpa using hpre⟩

/-- The search is right exactly if the sizes lead from header to header inside the block, and no
tag in front of the one that is searched is longer than an `int` can say. -/
theorem locateMbootTable_right_iff (hblock : Block m mboot) :
    Locates m mboot type ↔ Chained m mboot type ∧ ShortBefore m mboot type := by
  rw [locates_iff_search hblock, chained_iff]
  constructor
  · rintro ⟨r, hsearch, hfirst⟩
    refine ⟨⟨r, hsearch⟩, ?_⟩
    intro pre t post hts ht hpre u hu
    by_contra hlong
    have hhid : Hidden m type (pre ++ t :: post) := hidden_of_long hpre hu (not_le.mp hlong)
    have hzero := hsearch.eq_zero_of_hidden hblock hts hhid hts hhid (le_rfl) (by omega)
    have hr := hfirst _ hts
    rw [firstTag_append hpre ht, hzero] at hr
    have hge := hts.le_of_mem (u := t) (by simp)
    omega
  · rintro ⟨⟨r, hsearch⟩, hshort⟩
    refine ⟨r, hsearch, ?_⟩
    intro ts hts
    rcases absent_or_first m type ts with habsent | ⟨pre, t, post, rfl, ht, hpre⟩
    · have hhid := hidden_of_absent habsent
      rw [firstTag_absent habsent]
      exact hsearch.eq_zero_of_hidden hblock hts hhid hts hhid (le_rfl) (by omega)
    · rw [firstTag_append hpre ht]
      exact Search.eq_of_short hblock hpre (hshort pre t post hts ht hpre) ht hts hsearch

def oneTag : Memory := fun a => if a = 4096 then 24 else if a = 4104 then 6 else if a = 4108 then 16 else 0

theorem locateMbootTable_right_one : Block oneTag 4096 ∧ Locates oneTag 4096 6 := by
  have hblock : Block oneTag 4096 := ⟨by decide, by decide +kernel, by decide⟩
  refine ⟨hblock, (locateMbootTable_right_iff hblock).mpr ⟨⟨0, ?_, .inr ⟨⟨by decide, ?_⟩, ?_⟩⟩, ?_⟩⟩
  · exact fun k hk => absurd hk (Nat.not_lt_zero k)
  · decide +kernel
  · decide +kernel
  · intro pre t post hts _ hpre
    cases pre with
    | nil => exact fun u hu => absurd hu not_mem_nil
    | cons v pre =>
      obtain ⟨rfl, -⟩ := hts
      exact absurd (by decide +kernel) (hpre _ mem_cons_self)

def emptyTag : Memory := fun a => if a = 4096 then 24 else 0

/-- At a tag of size zero the search does not end. -/
theorem locateMbootTable_endless : Block emptyTag 4096 ∧
    (∀ fuel, locateMbootTable emptyTag 4096 6 fuel = none) ∧ ¬ Locates emptyTag 4096 6 := by
  have hblock : Block emptyTag 4096 := ⟨by decide, by decide +kernel, by decide⟩
  have hstay : nextTag emptyTag 4104 = 4104 := by decide +kernel
  have hin : 4104 < 4096 + totalSize emptyTag 4096 := by decide +kernel
  have htype : tagType emptyTag 4104 ≠ 6 := by decide +kernel
  have hloop (fuel : Nat) : locateMbootTable emptyTag 4096 6 fuel = none := by
    rw [locateMbootTable_block hblock]
    induction fuel with
    | zero => rfl
    | succ fuel ih =>
      rw [locateLoop_succ, if_pos hin, if_neg htype, hstay]
      exact ih
  refine ⟨hblock, hloop, ?_⟩
  rintro ⟨fuel, r, hrun, -⟩
  rw [hloop] at hrun
  cases hrun

end Comus.BootMap
