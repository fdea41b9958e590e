import Comus.Memory.PhysBitmap

/-!
# Page indices and the segment table

`page_at` walks the table that the second pass of `physalloc_init` has written.
For an address-ordered memory map the pages it returns keep at least their
index distance, so disjoint index ranges are disjoint physical ranges.
-/

namespace Comus.PhysAlloc

open Word List Function

variable {len a : Nat} {xs : List (Nat × Nat)} {mem : Nat → BitVec 64}

def pagesOf (len : Nat) : Nat := (len + 4095) / 4096

/-- Segments of fewer than `2^31` pages; for longer ones `n_pages` is negative or truncated. -/
def Short (len : Nat) : Prop := len + 4096 ≤ 2^43

theorem pagesOf_lt (h : Short len) : pagesOf len < 2^31 := by
  unfold pagesOf
  unfold Short at h
  omega

theorem nPages_of_short (h : Short len) : nPages len = pagesOf len := by
  have hlt := pagesOf_lt h
  unfold pagesOf at *
  unfold Short at h
  have hu : u64 (len + 4096 - 1) = len + 4095 := u64_of_lt (by omega)
  unfold nPages PAGE_SIZE
  rw [hu]
  exact toI32_of_lt (by omega) (by omega)

theorem toU64_nPages (h : Short len) : toU64 (nPages len) = pagesOf len := by
  have hlt := pagesOf_lt h
  rw [nPages_of_short h, toU64_natCast]
  exact u64_of_lt (by omega)

def readTable (mem : Nat → BitVec 64) : Nat → Nat → List (Nat × Nat)
  | 0, _ => []
  | k + 1, m => (segAddr mem m, segLen mem m) :: readTable mem k (m + segSize)

def pageAtList (i : Nat) : List (Nat × Nat) → Nat → Nat
  | [], _ => 0
  | x :: xs, cur =>
    if i - cur < pagesOf x.2 then x.1 + 4096 * (i - cur) else pageAtList i xs (cur + pagesOf x.2)

structure SegOk (x : Nat × Nat) : Prop where
  short : Short x.2
  bound : x.1 + 4096 * pagesOf x.2 ≤ 2^64

theorem pageAtLoop_eq_list (mem : Nat → BitVec 64) (i k m cur : Nat) (hi : i < 2^64)
    (hcur : cur ≤ i) (hok : ∀ x ∈ readTable mem k m, SegOk x) :
    pageAtLoop mem i k m cur = pageAtList i (readTable mem k m) cur := by
  induction k generalizing m cur with
  | zero => rfl
  | succ k ih =>
    have hx : SegOk (segAddr mem m, segLen mem m) := hok _ mem_cons_self
    have hsub : sub64 i cur = i - cur := sub64_of_le hcur hi
    have hb := hx.bound
    simp only at hb
    rw [pageAtLoop, readTable, pageAtList, toU64_nPages hx.short, hsub]
    simp only [PAGE_SIZE]
    split_ifs with hlt
    · exact u64_of_lt (by omega)
    · have hu : u64 (cur + pagesOf (segLen mem m)) = cur + pagesOf (segLen mem m) :=
        u64_of_lt (by omega)
      rw [hu]
      exact ih _ _ (by omega) (fun x hx => hok x (mem_cons_of_mem _ hx))

def Ascending (xs : List (Nat × Nat)) : Prop :=
  xs.Pairwise fun x y => 0 < pagesOf y.2 → x.1 + 4096 * pagesOf x.2 ≤ y.1

theorem le_pageAtList (hasc : Ascending xs) (base i cur : Nat)
    (hbase : ∀ y ∈ xs, 0 < pagesOf y.2 → base ≤ y.1) (hcur : cur ≤ i)
    (hne : pageAtList i xs cur ≠ 0) : base + 4096 * (i - cur) ≤ pageAtList i xs cur := by
  induction xs generalizing base cur with
  | nil => exact absurd rfl hne
  | cons x xs ih =>
    obtain ⟨hx, hxs⟩ := pairwise_cons.mp hasc
    rw [pageAtList] at hne ⊢
    split_ifs at hne ⊢ with hlt
    · have := hbase x mem_cons_self (by omega)
      omega
    · -- the pages of `x` are skipped: the base moves up by as much as the index does
      have hstep := ih hxs (base + 4096 * pagesOf x.2) (cur + pagesOf x.2) (by
        intro y hy hpos
        have hxy := hx y hy hpos
        have hby := hbase y (mem_cons_of_mem _ hy) hpos
        by_cases hp : 0 < pagesOf x.2
        · have := hbase x mem_cons_self hp
          omega
        · omega) (by omega) hne
      omega

theorem pageAtList_spaced (hasc : Ascending xs)
    (hpos : ∀ x ∈ xs, 0 < pagesOf x.2 → 0 < x.1) {i j cur : Nat} (hcur : cur ≤ i) (hij : i ≤ j)
    (hne : pageAtList j xs cur ≠ 0) :
    pageAtList i xs cur ≠ 0 ∧ pageAtList i xs cur + 4096 * (j - i) ≤ pageAtList j xs cur := by
  induction xs generalizing cur with
  | nil => exact absurd rfl hne
  | cons x xs ih =>
    obtain ⟨hx, hxs⟩ := pairwise_cons.mp hasc
    rw [pageAtList] at hne ⊢
    rw [pageAtList]
    by_cases hi : i - cur < pagesOf x.2
    · have hx0 := hpos x mem_cons_self (by omega)
      rw [if_pos hi]
      refine ⟨by omega, ?_⟩
      by_cases hj : j - cur < pagesOf x.2
      · rw [if_pos hj]
        omega
      · rw [if_neg hj] at hne ⊢
        have hlow := le_pageAtList hxs (x.1 + 4096 * pagesOf x.2) j (cur + pagesOf x.2) hx
          (by omega) hne
        omega
    · have hj : ¬ j - cur < pagesOf x.2 := by omega
      rw [if_neg hi]
      rw [if_neg hj] at hne ⊢
      exact ih hxs (fun y hy => hpos y (mem_cons_of_mem _ hy)) (by omega) hne

theorem pageAtList_aligned (hal : ∀ x ∈ xs, x.1 % 4096 = 0) (i cur : Nat) :
    pageAtList i xs cur % 4096 = 0 := by
  induction xs generalizing cur with
  | nil => rfl
  | cons x xs ih =>
    have hx := hal x mem_cons_self
    rw [pageAtList]
    split_ifs
    · omega
    · exact ih (fun y hy => hal y (mem_cons_of_mem _ hy)) _

def clamped (b : Boot) (memoryStart : Nat) (map : List Segment) : List (Nat × Nat) :=
  (map.filter fun seg => !segmentInvalid b memoryStart seg).map (clampSegment b memoryStart)

theorem clamped_cons (b : Boot) (ms : Nat) (seg : Segment) (map : List Segment) :
    clamped b ms (seg :: map) =
      if segmentInvalid b ms seg then clamped b ms map
      else clampSegment b ms seg :: clamped b ms map := by
  cases h : segmentInvalid b ms seg <;> simp [clamped, h]

theorem countPass_snd (b : Boot) (map : List Segment) (pc sc : Nat) :
    (countPass b map pc sc).2 = sc + (clamped b 0 map).length := by
  induction map generalizing pc sc with
  | nil => rfl
  | cons seg map ih =>
    rw [countPass, clamped_cons]
    split_ifs
    · exact ih pc sc
    · rw [ih, length_cons]
      omega

theorem clamped_length_le (b : Boot) (ms : Nat) (map : List Segment) :
    (clamped b ms map).length ≤ (clamped b 0 map).length := by
  induction map with
  | nil => exact le_rfl
  | cons seg map ih =>
    rw [clamped_cons, clamped_cons]
    by_cases h0 : segmentInvalid b 0 seg = true
    · have hms : segmentInvalid b ms seg = true := by
        simp only [segmentInvalid, Bool.or_eq_true, decide_eq_true_eq] at h0 ⊢
        rcases h0 with (((hlen | htype) | hlow) | hzero) | hend
        · exact .inl (.inl (.inl (.inl hlen)))
        · exact .inl (.inl (.inl (.inr htype)))
        · exact .inl (.inl (.inr hlow))
        · exact absurd hzero (Nat.not_lt_zero _)
        · exact .inr hend
      rw [if_pos h0, if_pos hms]
      exact ih
    · rw [if_neg h0]
      split_ifs
      · exact Nat.le_succ_of_le ih
      · exact Nat.succ_le_succ ih

theorem writePass_below (b : Boot) (ms : Nat) (map : List Segment) (area : Nat)
    (mem : Nat → BitVec 64) (h : a < area) : writePass b ms map area mem a = mem a := by
  induction map generalizing area mem with
  | nil => rfl
  | cons seg map ih =>
    rw [writePass]
    split_ifs
    · exact ih area mem h
    · rw [ih _ _ (by unfold segSize; omega), update_of_ne (by omega),
        update_of_ne (by omega)]

theorem writePass_above (b : Boot) (ms : Nat) (map : List Segment) (area : Nat)
    (mem : Nat → BitVec 64) (h : area + segSize * (clamped b ms map).length ≤ a) :
    writePass b ms map area mem a = mem a := by
  induction map generalizing area mem with
  | nil => rfl
  | cons seg map ih =>
    rw [writePass]
    rw [clamped_cons] at h
    unfold segSize at h
    split_ifs at h ⊢
    · exact ih area mem (by unfold segSize; omega)
    · rw [length_cons] at h
      rw [ih _ _ (by unfold segSize; omega), update_of_ne (by omega),
        update_of_ne (by omega)]

theorem readTable_congr {mem' : Nat → BitVec 64} (k m : Nat)
    (h : ∀ a, m ≤ a → a < m + segSize * k → mem a = mem' a) :
    readTable mem k m = readTable mem' k m := by
  induction k generalizing m with
  | zero => rfl
  | succ k ih =>
    unfold segSize at h
    rw [readTable, readTable, segAddr, segLen, segAddr, segLen, h m (by omega) (by omega),
      h (m + 8) (by omega) (by omega)]
    rw [ih (m + segSize) (by unfold segSize; intro a h1 h2; exact h a (by omega) (by omega))]

theorem readTable_zero (k m : Nat) (h : ∀ a, m ≤ a → a < m + segSize * k → mem a = 0#64) :
    readTable mem k m = replicate k (0, 0) := by
  induction k generalizing m with
  | zero => rfl
  | succ k ih =>
    unfold segSize at h
    rw [readTable, segAddr, segLen, h m (by omega) (by omega), h (m + 8) (by omega) (by omega),
      replicate_succ]
    rw [ih (m + segSize) (by unfold segSize; intro a h1 h2; exact h a (by omega) (by omega))]
    rfl

/-- Reading the table back gives the clamped segments, then empty entries: the
first pass may have counted more segments than the second one writes. -/
theorem readTable_writePass (b : Boot) (ms : Nat) (map : List Segment) (area k : Nat)
    (mem : Nat → BitVec 64) (hk : (clamped b ms map).length ≤ k)
    (hzero : ∀ a, area ≤ a → a < area + segSize * k → mem a = 0#64)
    (hlt : ∀ x ∈ clamped b ms map, x.1 < 2^64 ∧ x.2 < 2^64) :
    readTable (writePass b ms map area mem) k area =
      clamped b ms map ++ replicate (k - (clamped b ms map).length) (0, 0) := by
  induction map generalizing area k mem with
  | nil => exact readTable_zero k area hzero
  | cons seg map ih =>
    rw [writePass]
    rw [clamped_cons] at hk hlt ⊢
    by_cases hinv : segmentInvalid b ms seg = true
    · simp only [hinv, if_true] at hk hlt ⊢
      exact ih area k mem hk hzero hlt
    · simp only [hinv, Bool.false_eq_true, if_false] at hk hlt ⊢
      cases k with
      | zero => cases hk
      | succ k =>
        have hx := hlt _ mem_cons_self
        have hk' : (clamped b ms map).length ≤ k := by simpa using hk
        unfold segSize at hzero
        rw [readTable, ih (area + segSize) k _ hk' (by
          unfold segSize
          intro a h1 h2
          rw [update_of_ne (by omega), update_of_ne (by omega)]
          exact hzero a (by omega) (by omega))
          (fun x hx => hlt x (mem_cons_of_mem _ hx))]
        have hrest : k + 1 - ((clamped b ms map).length + 1) = k - (clamped b ms map).length := by
          omega
        rw [length_cons, hrest, cons_append]
        congr 1
        rw [segAddr, segLen, writePass_below b ms map _ _ (by unfold segSize; omega),
          writePass_below b ms map _ _ (by unfold segSize; omega), update_self,
          update_of_ne (by omega), update_self]
        simp only [BitVec.toNat_ofNat, Nat.mod_eq_of_lt hx.1, Nat.mod_eq_of_lt hx.2]

end Comus.PhysAlloc
