import Comus.Memory.PhysRuns

/-!
# page_idx as the inverse of page_at

Both functions walk the segment table. The walk of `page_idx` takes the upper
bound of a segment from the address of its table entry, so that what it finds
depends on where the table lies.
-/

namespace Comus.PhysAlloc

open Word Option List

variable {loc front x len i o : Nat} {xs : List (Nat × Nat)} {r h : Row} {rs : List Row} {s : Phys}

structure Row where
  loc : Nat
  front : Nat
  addr : Nat
  len : Nat
  deriving Repr, DecidableEq

def Row.bound (r : Row) : Nat := u64 (r.loc + r.len)

def Row.Holds (r : Row) (x : Nat) : Prop := r.addr ≤ x ∧ x < r.addr + r.len

def rowsFrom : Nat → Nat → List (Nat × Nat) → List Row
  | _, _, [] => []
  | loc, front, x :: xs => ⟨loc, front, x.1, x.2⟩ :: rowsFrom (loc + segSize) (front + pagesOf x.2) xs

def rows (s : Phys) : List Row :=
  rowsFrom s.pageStart 0 (readTable s.mem s.segmentCount s.pageStart)

def rowFound (x : Nat) : List Row → Option Row
  | [] => none
  | r :: rs => if x < r.addr then none else if x < r.bound then some r else rowFound x rs

/-- The index computed from the row found, the count in front of it being an `int`. -/
def Row.index (r : Row) (x : Nat) : Int := toI64 (toI32 r.front + ((x - r.addr) / 4096 : Nat))

/-- Segments of whole pages in address order, without overlap, below `2^64`. -/
structure Tabled (rs : List Row) : Prop where
  aligned : ∀ r ∈ rs, r.addr % 4096 = 0 ∧ r.len % 4096 = 0
  inside : ∀ r ∈ rs, r.addr + r.len ≤ 2^64
  ordered : rs.Pairwise fun x y => x.addr + x.len ≤ y.addr

def totalPages (s : Phys) : Nat := ((rows s).map fun r => pagesOf r.len).sum

def Outside (s : Phys) (x : Nat) : Prop := x < 2^64 ∧ ∀ r ∈ rows s, ¬ r.Holds x

def IndexInverse (s : Phys) : Prop :=
  (∀ i, i < totalPages s → pageIdx s (pageAt s i) = i) ∧ ∀ x, Outside s x → pageIdx s x = -1

/-- Every page lies below the bound of some row that does not start behind it, and no
bound lies above an address outside the segments. -/
structure BoundsRight (s : Phys) : Prop where
  above : ∀ r ∈ rows s, ∀ x, r.Holds x → x % 4096 = 0 → ∃ h ∈ rows s, h.addr ≤ x ∧ x < h.bound
  below : ∀ h ∈ rows s, ∀ x, Outside s x → h.addr ≤ x → h.bound ≤ x

/-- The same for a table whose pages an `int` cannot count: the row found for a page
must give its index although counts wrap, and the row found for an address outside
must give minus one. -/
structure WrappedRight (s : Phys) : Prop where
  pages : ∀ i, i < totalPages s → ∃ h, rowFound (pageAt s i) (rows s) = some h ∧
    h.index (pageAt s i) = i
  outside : ∀ x, Outside s x → ∀ h, rowFound x (rows s) = some h → h.index x = -1

theorem rowsFrom_map (loc front : Nat) (xs : List (Nat × Nat)) :
    (rowsFrom loc front xs).map (fun r => (r.addr, r.len)) = xs := by
  induction xs generalizing loc front with
  | nil => rfl
  | cons x xs ih => rw [rowsFrom, map_cons, ih]

theorem mem_of_mem_rowsFrom {x : Nat × Nat}
    (h : x ∈ xs) : ∃ r ∈ rowsFrom loc front xs, (r.addr, r.len) = x := by
  rw [← rowsFrom_map loc front xs] at h
  exact mem_map.mp h

theorem pagesOf_of_aligned (h : len % 4096 = 0) : pagesOf len = len / 4096 := by
  unfold pagesOf
  omega

theorem Tabled.tail (h : Tabled (r :: rs)) : Tabled rs :=
  ⟨fun x hx => h.aligned x (mem_cons_of_mem _ hx),
    fun x hx => h.inside x (mem_cons_of_mem _ hx), (pairwise_cons.mp h.ordered).2⟩

theorem nPages_of_aligned (hal : len % 4096 = 0) (hlt : len < 2^64) :
    nPages len = toI32 (pagesOf len) := by
  have hu : u64 (len + 4096 - 1) = len + 4095 := u64_of_lt (by omega)
  unfold nPages pagesOf PAGE_SIZE
  rw [hu]

theorem pageIdxLoop_eq (mem : Nat → BitVec 64) (x k m front : Nat)
    (hal : ∀ r ∈ rowsFrom m front (readTable mem k m), r.len % 4096 = 0) :
    pageIdxLoop mem x k m (toI32 front) =
      ((rowFound x (rowsFrom m front (readTable mem k m))).elim (-1) fun r => r.index x) := by
  induction k generalizing m front with
  | zero => rfl
  | succ k ih =>
    have hlen : segLen mem m % 4096 = 0 := hal _ mem_cons_self
    have hlt : segLen mem m < 2^64 := BitVec.isLt _
    rw [pageIdxLoop, readTable, rowsFrom]
    dsimp only
    rw [rowFound]
    dsimp only
    by_cases hbelow : x < segAddr mem m
    · rw [if_pos hbelow, if_pos hbelow]
      rfl
    · rw [if_neg hbelow, if_neg hbelow]
      by_cases hbound : x < (⟨m, front, segAddr mem m, segLen mem m⟩ : Row).bound
      · have hbound' : u64 (m + segLen mem m) > x := hbound
        rw [if_pos hbound, if_pos hbound', elim_some, Row.index, PAGE_SIZE]
      · have hbound' : ¬ u64 (m + segLen mem m) > x := hbound
        rw [if_neg hbound, if_neg hbound', nPages_of_aligned hlen hlt, toI32_add, ← Nat.cast_add]
        exact ih _ _ fun r hr => hal r (mem_cons_of_mem _ hr)

theorem pageIdx_eq (h : Tabled (rows s)) (x : Nat) :
    pageIdx s x = (rowFound x (rows s)).elim (-1) fun r => r.index x := by
  have hzero : toI32 ((0 : Nat) : Int) = 0 := toI32_of_lt (by decide) (by decide)
  have hloop := pageIdxLoop_eq s.mem x s.segmentCount s.pageStart 0 fun r hr => (h.aligned r hr).2
  rw [hzero] at hloop
  exact hloop

theorem rowFound_some (hf : rowFound x rs = some h) :
    h ∈ rs ∧ h.addr ≤ x ∧ x < h.bound := by
  induction rs with
  | nil => cases hf
  | cons r rs ih =>
    unfold rowFound at hf
    split_ifs at hf with hbelow hbound
    · cases hf
      exact ⟨mem_cons_self, Nat.le_of_not_lt hbelow, hbound⟩
    · obtain ⟨hmem, hrest⟩ := ih hf
      exact ⟨mem_cons_of_mem _ hmem, hrest⟩

theorem Tabled.rowFound_isSome (ht : Tabled rs) (hmem : h ∈ rs)
    (haddr : h.addr ≤ x) (hbound : x < h.bound) : ∃ r, rowFound x rs = some r := by
  induction rs with
  | nil => exact absurd hmem not_mem_nil
  | cons r rs ih =>
    unfold rowFound
    rcases mem_cons.mp hmem with rfl | hmem
    · exact ⟨h, by rw [if_neg (not_lt.mpr haddr), if_pos hbound]⟩
    · have hle := (pairwise_cons.mp ht.ordered).1 h hmem
      rw [if_neg (by omega)]
      split_ifs
      · exact ⟨r, rfl⟩
      · exact ih ht.tail hmem

theorem front_bounds (hr : r ∈ rowsFrom loc front xs) : front ≤ r.front ∧ r.front + pagesOf r.len ≤
      front + ((rowsFrom loc front xs).map fun r => pagesOf r.len).sum := by
  induction xs generalizing loc front with
  | nil => exact absurd hr not_mem_nil
  | cons x xs ih =>
    rw [rowsFrom] at hr ⊢
    rw [map_cons, sum_cons]
    rcases mem_cons.mp hr with rfl | hr
    · dsimp only
      omega
    · have := ih hr
      dsimp only
      omega

theorem exists_row (hlo : front ≤ i)
    (hi : i < front + ((rowsFrom loc front xs).map fun r => pagesOf r.len).sum) :
    ∃ r ∈ rowsFrom loc front xs, r.front ≤ i ∧ i < r.front + pagesOf r.len := by
  induction xs generalizing loc front with
  | nil => exact absurd hi (by simp [rowsFrom]; omega)
  | cons x xs ih =>
    rw [rowsFrom, map_cons, sum_cons, ← add_assoc] at hi
    by_cases hx : i < front + pagesOf x.2
    · exact ⟨_, mem_cons_self, hlo, hx⟩
    · obtain ⟨r, hr, hrest⟩ := ih (Nat.le_of_not_lt hx) hi
      exact ⟨r, mem_cons_of_mem _ hr, hrest⟩

theorem pageAtList_row (hr : r ∈ rowsFrom loc front xs) (ho : o < pagesOf r.len) :
    pageAtList (r.front + o) xs front = r.addr + 4096 * o := by
  induction xs generalizing loc front with
  | nil => exact absurd hr not_mem_nil
  | cons x xs ih =>
    rw [rowsFrom] at hr
    rw [pageAtList]
    rcases mem_cons.mp hr with rfl | hr
    · dsimp only at ho ⊢
      rw [Nat.add_sub_cancel_left, if_pos ho]
    · have := front_bounds hr
      rw [if_neg (by omega)]
      exact ih hr

theorem pageAt_row (h : Tabled (rows s)) (hsmall : totalPages s < 2^31) (hr : r ∈ rows s) (ho : o < pagesOf r.len) :
    pageAt s (r.front + o) = r.addr + 4096 * o := by
  have hfront := (front_bounds hr).2
  change r.front + pagesOf r.len ≤ 0 + totalPages s at hfront
  rw [pageAt, pageAtLoop_eq_list _ _ _ _ _ (by omega) (Nat.zero_le _) ?_]
  · exact pageAtList_row hr ho
  · intro x hx
    obtain ⟨q, hq, rfl⟩ := mem_of_mem_rowsFrom hx
    have hqf := (front_bounds hq).2
    change q.front + pagesOf q.len ≤ 0 + totalPages s at hqf
    have hqa := h.aligned q hq
    have hqi := h.inside q hq
    have hpages := pagesOf_of_aligned hqa.2
    refine ⟨?_, ?_⟩
    · unfold Short
      dsimp only
      omega
    · dsimp only
      omega

theorem front_of_covered {e : Nat} (ht : Tabled (rowsFrom loc front xs)) (hfrom : ∀ q ∈ rowsFrom loc front xs, e ≤ q.addr)
    (hr : r ∈ rowsFrom loc front xs) (ho : o < pagesOf r.len)
    (hcov : ∀ y, e ≤ y → y ≤ r.addr + 4096 * o → ∃ q ∈ rowsFrom loc front xs, q.Holds y) :
    e + 4096 * (r.front + o) = r.addr + 4096 * o + 4096 * front := by
  induction xs generalizing loc front e with
  | nil => exact absurd hr not_mem_nil
  | cons x xs ih =>
    rw [rowsFrom] at ht hfrom hr hcov
    obtain ⟨hx, -⟩ := pairwise_cons.mp ht.ordered
    have hxe := hfrom _ mem_cons_self
    have hxal := ht.aligned _ mem_cons_self
    have hpages := pagesOf_of_aligned hxal.2
    dsimp only at hx hxe hxal hpages
    -- the first row starts at `e`, unless it is empty
    have hstart : x.2 = 0 ∨ x.1 = e := by
      by_contra hnot
      obtain ⟨hlen, haddr⟩ := not_or.mp hnot
      obtain ⟨q, hq, hqe⟩ := hcov e (le_refl e) (by
        have := hfrom r hr
        omega)
      unfold Row.Holds at hqe
      rcases mem_cons.mp hq with rfl | hq
      · dsimp only at hqe
        omega
      · have := hx q hq
        omega
    rcases mem_cons.mp hr with rfl | hr
    · dsimp only at ho ⊢
      have : 0 < x.2 := by
        unfold pagesOf at ho
        omega
      omega
    · have hrx := hx r hr
      have hrest := ih (e := e + x.2) ht.tail
        (fun q hq => by
          have hqx := hx q hq
          have hqe := hfrom q (mem_cons_of_mem _ hq)
          omega)
        hr
        (fun y hlo hhi => by
          obtain ⟨q, hq, hqy⟩ := hcov y (by omega) hhi
          rcases mem_cons.mp hq with rfl | hq
          · unfold Row.Holds at hqy
            dsimp only at hqy
            omega
          · exact ⟨q, hq, hqy⟩)
      omega

theorem index_of_covered (ht : Tabled (rowsFrom loc front xs)) (hh : h ∈ rowsFrom loc front xs)
    (hr : r ∈ rowsFrom loc front xs) (ho : o < pagesOf r.len) (hle : h.addr ≤ r.addr + 4096 * o)
    (hcov : ∀ y, h.addr ≤ y → y ≤ r.addr + 4096 * o → ∃ q ∈ rowsFrom loc front xs, q.Holds y) :
    h.addr + 4096 * (r.front + o) = r.addr + 4096 * o + 4096 * h.front := by
  induction xs generalizing loc front with
  | nil => exact absurd hr not_mem_nil
  | cons x xs ih =>
    rcases mem_cons.mp hh with rfl | hh'
    · refine front_of_covered ht (fun q hq => ?_) hr ho hcov
      rcases mem_cons.mp hq with rfl | hq
      · exact le_rfl
      · have := (pairwise_cons.mp ht.ordered).1 q hq
        dsimp only at this ⊢
        omega
    · have hxh := (pairwise_cons.mp ht.ordered).1 h hh'
      have hral := ht.aligned r hr
      have hrpages := pagesOf_of_aligned hral.2
      dsimp only at hxh
      rcases mem_cons.mp hr with rfl | hr'
      · dsimp only at hle hrpages ho
        omega
      · refine ih ht.tail hh' hr' fun y hlo hhi => ?_
        obtain ⟨q, hq, hqy⟩ := hcov y hlo hhi
        rcases mem_cons.mp hq with rfl | hq
        · unfold Row.Holds at hqy
          dsimp only at hqy
          omega
        · exact ⟨q, hq, hqy⟩

variable {s : Phys}

theorem Row.index_of_small (hfront : r.front < 2^31) (hx : x < 2^64) :
    r.index x = (r.front + (x - r.addr) / 4096 : Nat) := by
  unfold Row.index
  rw [toI32_of_lt (by omega) (by omega), ← Nat.cast_add, toI64_of_lt (by omega) (by omega)]

theorem front_le_totalPages (hr : r ∈ rows s) :
    r.front + pagesOf r.len ≤ totalPages s := by
  have := (front_bounds hr).2
  change r.front + pagesOf r.len ≤ 0 + totalPages s at this
  omega

theorem pageIdx_of_found (h : Tabled (rows s)) (hf : rowFound x (rows s) = some r) : pageIdx s x = r.index x := by
  rw [pageIdx_eq h, hf, elim_some]

theorem pageIdx_of_none (h : Tabled (rows s)) (hf : rowFound x (rows s) = none) :
    pageIdx s x = -1 := by
  rw [pageIdx_eq h, hf, elim_none]

theorem exists_found (h : Tabled (rows s)) (hi : pageIdx s x = i) :
    ∃ r, rowFound x (rows s) = some r ∧ r.index x = i := by
  cases hf : rowFound x (rows s) with
  | none =>
    rw [pageIdx_of_none h hf] at hi
    omega
  | some r => exact ⟨r, rfl, pageIdx_of_found h hf ▸ hi⟩

theorem IndexInverse.boundsRight (h : Tabled (rows s)) (hsmall : totalPages s < 2^31)
    (hinv : IndexInverse s) : BoundsRight s where
  above r hr x hx hal := by
    have hral := h.aligned r hr
    have hpages := pagesOf_of_aligned hral.2
    have hrt := front_le_totalPages hr
    unfold Row.Holds at hx
    have ho : (x - r.addr) / 4096 < pagesOf r.len := by omega
    have haddr : r.addr + 4096 * ((x - r.addr) / 4096) = x := by omega
    have hpage := pageAt_row h hsmall hr ho
    have hidx := hinv.1 (r.front + (x - r.addr) / 4096) (by omega)
    rw [hpage, haddr] at hidx
    obtain ⟨q, hq, -⟩ := exists_found h hidx
    exact ⟨q, rowFound_some hq⟩
  below q hq x hx hle := by
    by_contra hlt
    obtain ⟨r, hr⟩ := h.rowFound_isSome hq hle (Nat.lt_of_not_le hlt)
    have hrt := front_le_totalPages (rowFound_some hr).1
    have hidx := hinv.2 x hx
    rw [pageIdx_of_found h hr, Row.index_of_small (by omega) hx.1] at hidx
    omega

theorem BoundsRight.indexInverse (h : Tabled (rows s)) (hsmall : totalPages s < 2^31)
    (hb : BoundsRight s) : IndexInverse s := by
  constructor
  · intro i hi
    obtain ⟨r, hr, hlo, hhi⟩ := exists_row (Nat.zero_le i)
      (by rw [zero_add]; exact hi)
    have hral := h.aligned r hr
    have hrin := h.inside r hr
    have hpages := pagesOf_of_aligned hral.2
    obtain ⟨o, rfl⟩ := Nat.exists_eq_add_of_le hlo
    have ho : o < pagesOf r.len := by omega
    rw [pageAt_row h hsmall hr ho]
    have hholds : r.Holds (r.addr + 4096 * o) := ⟨by omega, by omega⟩
    obtain ⟨q, hq, hqle, hqlt⟩ := hb.above r hr _ hholds (by omega)
    obtain ⟨f, hf⟩ := h.rowFound_isSome hq hqle hqlt
    obtain ⟨hfmem, hfle, hflt⟩ := rowFound_some hf
    have hft := front_le_totalPages hfmem
    -- nothing between the row found and the page lies outside the segments
    have hcov : ∀ y, f.addr ≤ y → y ≤ r.addr + 4096 * o → ∃ q ∈ rows s, q.Holds y := by
      intro y hlo hhi
      by_contra hnone
      have := hb.below f hfmem y ⟨by omega, fun q hq hqy => hnone ⟨q, hq, hqy⟩⟩ hlo
      omega
    have heq := index_of_covered h hfmem hr ho hfle hcov
    rw [pageIdx_of_found h hf, Row.index_of_small (by omega) (by omega)]
    congr 1
    omega
  · intro x hx
    refine pageIdx_of_none h ?_
    cases hf : rowFound x (rows s) with
    | none => rfl
    | some f =>
      obtain ⟨hfmem, hfle, hflt⟩ := rowFound_some hf
      have := hb.below f hfmem x hx hfle
      omega

/-- `page_idx` is the inverse of `page_at` exactly when the bounds it takes from the
addresses of the table entries happen to separate the segments. -/
theorem index_inverse_iff (s : Phys) (h : Tabled (rows s)) :
    IndexInverse s ↔ if totalPages s < 2^31 then BoundsRight s else WrappedRight s := by
  split_ifs with hsmall
  · exact ⟨fun hinv => hinv.boundsRight h hsmall, fun hb => hb.indexInverse h hsmall⟩
  · constructor
    · intro hinv
      refine ⟨fun i hi => exists_found h (hinv.1 i hi), fun x hx q hq => ?_⟩
      rw [← pageIdx_of_found h hq]
      exact hinv.2 x hx
    · rintro ⟨hpages, hout⟩
      constructor
      · intro i hi
        obtain ⟨q, hq, hidx⟩ := hpages i hi
        rw [pageIdx_of_found h hq]
        exact hidx
      · intro x hx
        cases hf : rowFound x (rows s) with
        | none => exact pageIdx_of_none h hf
        | some q =>
          rw [pageIdx_of_found h hf]
          exact hout x hx q hf

/-! ## One segment of one page

The table entry for the page at `0x100000` lies at `loc`. -/

def onePage (loc : Nat) : Phys where
  mem a := if a = loc then 0x100000#64 else if a = loc + 8 then 0x1000#64 else 0#64
  bitmap := 1
  pageStart := loc
  memoryStart := 0
  totalMemory := 0
  freeMemory := 0
  pageCount := 1
  segmentCount := 1

theorem onePage_rows (loc : Nat) : rows (onePage loc) = [⟨loc, 0, 0x100000, 0x1000⟩] := by
  simp [rows, readTable, rowsFrom, segAddr, segLen, onePage]

theorem onePage_tabled (loc : Nat) : Tabled (rows (onePage loc)) := by
  rw [onePage_rows]
  exact ⟨by simp, by simp, pairwise_singleton _ _⟩

/-- A table entry in the page it describes has the right bound. -/
theorem index_inverse_onePage : IndexInverse (onePage 0x100000) := by
  have htotal : totalPages (onePage 0x100000) < 2^31 := by
    rw [totalPages, onePage_rows]
    decide
  have hbound : u64 (0x100000 + 0x1000) = 0x101000 := u64_of_lt (by decide)
  refine (index_inverse_iff _ (onePage_tabled _)).mpr ?_
  rw [if_pos htotal]
  refine ⟨?_, ?_⟩
  · rw [onePage_rows]
    intro r hr x hx _
    obtain rfl := mem_singleton.mp hr
    refine ⟨_, mem_cons_self, hx.1, ?_⟩
    rw [Row.bound, hbound]
    exact hx.2
  · intro q hq x hx hle
    have hnot := hx.2 q hq
    rw [onePage_rows] at hq
    obtain rfl := mem_singleton.mp hq
    unfold Row.Holds at hnot
    rw [Row.bound, hbound]
    dsimp only at hle hnot
    omega

/-- With the table below the segment the only page is not found again. -/
theorem page_not_found : Tabled (rows (onePage 0x1000)) ∧
    pageAt (onePage 0x1000) 0 = 0x100000 ∧ pageIdx (onePage 0x1000) 0x100000 = -1 ∧
    ¬ IndexInverse (onePage 0x1000) := by
  have hat : pageAt (onePage 0x1000) 0 = 0x100000 := by decide +kernel
  have hidx : pageIdx (onePage 0x1000) 0x100000 = -1 := by decide +kernel
  have htotal : 0 < totalPages (onePage 0x1000) := by
    rw [totalPages, onePage_rows]
    decide
  refine ⟨onePage_tabled _, hat, hidx, fun h => ?_⟩
  have hzero := h.1 0 htotal
  rw [hat, hidx] at hzero
  cases hzero

end Comus.PhysAlloc
