import Comus.Memory.PhysAlloc

/-!
# What one bitmap write really changes

The mask of `bitmap_set` is computed in 32 bits. Writing page index `i` reaches
the bit `i % 32` of its word, and for `i % 32 = 31` the whole range from bit 31
up, because the sign bit is extended. Both facts are exact, for every index.
-/

namespace Comus.PhysAlloc

open Word Option Function

variable {k b i w pages n start : Nat} {s : Phys} {free : Nat → Bool} {pageAt : Nat → Nat}

/-- The bits of the word of page `i` that `bitmap_set(i, v)` overwrites with `v`. -/
def Hit (i b : Nat) : Prop := if i % 32 = 31 then 31 ≤ b else b = i % 32

instance (i b : Nat) : Decidable (Hit i b) := by
  unfold Hit
  infer_instance

theorem one_shl_getLsbD (hk : k < 32) (b : Nat) :
    (1#32 <<< k).getLsbD b = decide (b = k) := by
  rw [BitVec.getLsbD_shiftLeft, BitVec.getLsbD_one]
  by_cases h : b = k
  · subst h
    simp [hk]
  · by_cases hb : b < 32
    · by_cases hkb : b < k
      · simp [hkb, h]
      · simp only [hb, hkb, h, decide_true, decide_false, Bool.not_false]
        simp only [Nat.zero_lt_succ, decide_true, Bool.true_and, decide_eq_false_iff_not]
        omega
    · simp only [hb, h, decide_false, Bool.false_and]

theorem one_shl_msb (hk : k < 32) : (1#32 <<< k).msb = decide (k = 31) := by
  rw [BitVec.msb_eq_getLsbD_last, one_shl_getLsbD hk]
  simp [eq_comm]

theorem clearMask_getLsbD (i : Nat) (hb : b < 64) :
    (clearMask i).getLsbD b = !decide (Hit i b) := by
  have hk : i % 32 < 32 := Nat.mod_lt _ (by decide)
  have hm : i % 64 % 32 = i % 32 := by omega
  unfold clearMask Hit
  rw [BitVec.getLsbD_signExtend, hm, BitVec.msb_not, one_shl_msb hk]
  by_cases hb32 : b < 32
  · rw [if_pos hb32, BitVec.getLsbD_not, one_shl_getLsbD hk]
    split_ifs
    · simp [hb, hb32]
      omega
    · simp [hb, hb32]
  · rw [if_neg hb32]
    split_ifs with h31
    · simp [hb, h31]
      omega
    · simp [hb, h31]
      omega

theorem setMask_getLsbD (v : Bool) (i : Nat) (hb : b < 64) :
    (setMask v i).getLsbD b = (v && decide (Hit i b)) := by
  have hk : i % 32 < 32 := Nat.mod_lt _ (by decide)
  have hm : i % 64 % 32 = i % 32 := by omega
  unfold setMask Hit
  cases v with
  | false => simp
  | true =>
    simp only [if_true]
    rw [BitVec.getLsbD_signExtend, hm, one_shl_msb hk]
    by_cases hb32 : b < 32
    · rw [if_pos hb32, one_shl_getLsbD hk]
      split_ifs
      · simp [hb]
        omega
      · simp [hb]
    · rw [if_neg hb32]
      split_ifs with h31
      · simp [hb, h31]
        omega
      · simp [hb, h31]
        omega

theorem bitmapGet_eq_getLsbD (s : Phys) (i : Nat) :
    bitmapGet s i = (s.mem (wordAt s i)).getLsbD (i % 64) := by
  unfold bitmapGet
  generalize s.mem (wordAt s i) = w
  have h0 : ((w >>> (i % 64)) &&& 1#64) = if w.getLsbD (i % 64) then 1#64 else 0#64 := by
    apply BitVec.eq_of_getLsbD_eq
    intro b hb
    rw [BitVec.getLsbD_and, BitVec.getLsbD_ushiftRight, BitVec.getLsbD_one]
    by_cases hb0 : b = 0
    · subst hb0
      cases w.getLsbD (i % 64) <;> simp
    · cases w.getLsbD (i % 64) <;> simp [hb0]
  rw [h0]
  cases w.getLsbD (i % 64) <;> rfl

theorem wordAt_eq_iff (s : Phys) (i j : Nat) : wordAt s i = wordAt s j ↔ i / 64 = j / 64 := by
  unfold wordAt
  omega

@[simp] theorem bitmapSet_freeMemory_true (s : Phys) (i : Nat) :
    (bitmapSet s i true).freeMemory = sub64 s.freeMemory PAGE_SIZE := by
  simp [bitmapSet]

@[simp] theorem bitmapSet_freeMemory_false (s : Phys) (i : Nat) :
    (bitmapSet s i false).freeMemory = u64 (s.freeMemory + PAGE_SIZE) := by
  simp [bitmapSet]

theorem bitmapGet_bitmapSet (s : Phys) (i j : Nat) (v : Bool) :
    bitmapGet (bitmapSet s i v) j =
      if j / 64 = i / 64 ∧ Hit i (j % 64) then v else bitmapGet s j := by
  have hb : j % 64 < 64 := Nat.mod_lt _ (by decide)
  rw [bitmapGet_eq_getLsbD, bitmapGet_eq_getLsbD]
  change (update s.mem (wordAt s i) _ (wordAt s j)).getLsbD (j % 64) = _
  by_cases hw : j / 64 = i / 64
  · have hwa : wordAt s j = wordAt s i := (wordAt_eq_iff s j i).mpr hw
    rw [hwa, update_self, BitVec.getLsbD_or, BitVec.getLsbD_and,
      clearMask_getLsbD i hb, setMask_getLsbD v i hb]
    by_cases hh : Hit i (j % 64)
    · simp [hw, hh]
    · simp [hh]
  · have hwa : wordAt s j ≠ wordAt s i := fun h => hw ((wordAt_eq_iff s j i).mp h)
    rw [update_of_ne hwa, if_neg (fun h => hw h.1)]

def clearPhys : Phys where
  mem _ := 0#64
  bitmap := 0
  pageStart := 0
  memoryStart := 0
  totalMemory := 0
  freeMemory := 0
  pageCount := 0
  segmentCount := 0

theorem bitmapGet_clearPhys (i : Nat) : bitmapGet clearPhys i = false := by
  rw [bitmapGet_eq_getLsbD]
  exact BitVec.getLsbD_zero

theorem bitmapGet_clearPhys_set {j : Nat} (hword : j / 64 = i / 64) (hhit : Hit i (j % 64)) :
    bitmapGet (bitmapSet clearPhys i true) j = true := by
  rw [bitmapGet_bitmapSet, if_pos ⟨hword, hhit⟩]

/-- `bitmap_set` writes the bit of its index and no other one of the `count` indices, exactly
for the lower 31 bits of a word, and for bit 31 of the last page. -/
theorem bitmapSet_exact_iff {i count : Nat} (hi : i < count) :
    (∀ (s : Phys) (v : Bool) (j : Nat), j < count →
      bitmapGet (bitmapSet s i v) j = if j = i then v else bitmapGet s j) ↔
    i % 64 < 31 ∨ i % 64 = 31 ∧ count = i + 1 := by
  constructor
  · intro hexact
    by_contra hnot
    rw [not_or, not_and] at hnot
    have hother : ∀ j, j < count → j ≠ i → j / 64 = i / 64 → ¬ Hit i (j % 64) := by
      intro j hj hne hword hhit
      have hget := hexact clearPhys true j hj
      rw [bitmapGet_clearPhys_set hword hhit, if_neg hne, bitmapGet_clearPhys] at hget
      cases hget
    have hlow : 31 ≤ i % 64 := not_lt.mp hnot.1
    by_cases h31 : i % 64 = 31
    · -- the sign bit is extended over the index behind
      have hcount := hnot.2 h31
      refine hother (i + 1) (by omega) (by omega) (by omega) ?_
      rw [Hit, if_pos (by omega)]
      omega
    · by_cases h63 : i % 64 = 63
      · refine hother (i - 1) (by omega) (by omega) (by omega) ?_
        rw [Hit, if_pos (by omega)]
        omega
      · -- the shift count is reduced to 32 bits
        refine hother (i - 32) (by omega) (by omega) (by omega) ?_
        rw [Hit, if_neg (by omega)]
        omega
  · intro hplace s v j hj
    have hhit : (j / 64 = i / 64 ∧ Hit i (j % 64)) ↔ j = i := by
      unfold Hit
      split_ifs <;> omega
    rw [bitmapGet_bitmapSet]
    simp only [hhit]

theorem bitmapSet_exact_fifth : 5 < 64 ∧ ((∀ (s : Phys) (v : Bool) (j : Nat), j < 64 →
      bitmapGet (bitmapSet s 5 v) j = if j = 5 then v else bitmapGet s j) ↔
    5 % 64 < 31 ∨ 5 % 64 = 31 ∧ 64 = 5 + 1) :=
  ⟨by decide, bitmapSet_exact_iff (by decide)⟩

/-- Page 32 is marked with page 31. -/
theorem bitmapSet_spills : bitmapGet clearPhys 32 = false ∧
    bitmapGet (bitmapSet clearPhys 31 true) 32 = true := by
  decide +kernel

theorem bitmapSetRun_fields (s : Phys) (start : Nat) (v : Bool) (n : Nat) :
    (bitmapSetRun s start v n).bitmap = s.bitmap ∧
    (bitmapSetRun s start v n).pageStart = s.pageStart ∧
    (bitmapSetRun s start v n).pageCount = s.pageCount ∧
    (bitmapSetRun s start v n).segmentCount = s.segmentCount := by
  induction n with
  | zero => exact ⟨rfl, rfl, rfl, rfl⟩
  | succ n ih => exact ih

theorem bitmapSetRun_memoryStart (s : Phys) (start : Nat) (v : Bool) (n : Nat) :
    (bitmapSetRun s start v n).memoryStart = s.memoryStart := by
  induction n with
  | zero => rfl
  | succ n ih => exact ih

theorem bitmapSetRun_mem (s : Phys) (start : Nat) (v : Bool) (n a : Nat) (hn : start + n ≤ 2^64)
    (ha : ∀ t, t < n → a ≠ s.bitmap + 8 * ((start + t) / 64)) :
    (bitmapSetRun s start v n).mem a = s.mem a := by
  induction n with
  | zero => rfl
  | succ n ih =>
    have hu : u64 (start + n) = start + n := u64_of_lt (by omega)
    have hb := (bitmapSetRun_fields s start v n).1
    have hne : a ≠ wordAt (bitmapSetRun s start v n) (start + n) := by
      unfold wordAt
      rw [hb]
      exact ha n (by omega)
    rw [bitmapSetRun, hu]
    change update _ _ _ a = _
    rw [update_of_ne hne]
    exact ih (by omega) (fun t ht => ha t (by omega))

theorem bitmapGet_bitmapSetRun (s : Phys) (start : Nat) (v : Bool) (n j : Nat) (hn : start + n ≤ 2^64) :
    ((∃ t, t < n ∧ j / 64 = (start + t) / 64 ∧ Hit (start + t) (j % 64)) →
      bitmapGet (bitmapSetRun s start v n) j = v) ∧
    ((∀ t, t < n → j / 64 = (start + t) / 64 → ¬ Hit (start + t) (j % 64)) →
      bitmapGet (bitmapSetRun s start v n) j = bitmapGet s j) := by
  induction n with
  | zero => exact ⟨fun ⟨t, ht, _⟩ => absurd ht (Nat.not_lt_zero t), fun _ => rfl⟩
  | succ n ih =>
    have hu : u64 (start + n) = start + n := u64_of_lt (by omega)
    obtain ⟨ih1, ih2⟩ := ih (by omega)
    rw [bitmapSetRun, hu, bitmapGet_bitmapSet]
    constructor
    · rintro ⟨t, ht, hw, hh⟩
      split_ifs with hlast
      · rfl
      · rcases Nat.lt_succ_iff_lt_or_eq.mp ht with hlt | heq
        · exact ih1 ⟨t, hlt, hw, hh⟩
        · subst heq
          exact absurd ⟨hw, hh⟩ hlast
    · intro hall
      rw [if_neg (fun h => hall n (by omega) h.1 h.2)]
      exact ih2 (fun t ht => hall t (by omega))

theorem bitmapSetRun_freeMemory_true (s : Phys) (start n : Nat)
    (h : PAGE_SIZE * n ≤ s.freeMemory) (hs : s.freeMemory < 2^64) :
    (bitmapSetRun s start true n).freeMemory = s.freeMemory - PAGE_SIZE * n := by
  induction n with
  | zero => simp [bitmapSetRun]
  | succ n ih =>
    rw [Nat.mul_succ] at h ⊢
    rw [bitmapSetRun, bitmapSet_freeMemory_true, ih (by omega), sub64_of_le (by omega) (by omega)]
    omega

theorem bitmapSetRun_freeMemory_false (s : Phys) (start n : Nat) (h : s.freeMemory + PAGE_SIZE * n < 2^64) :
    (bitmapSetRun s start false n).freeMemory = s.freeMemory + PAGE_SIZE * n := by
  induction n with
  | zero => simp [bitmapSetRun]
  | succ n ih =>
    rw [Nat.mul_succ, ← add_assoc] at h
    rw [bitmapSetRun, bitmapSet_freeMemory_false, ih (by omega), u64_of_lt h, Nat.mul_succ,
      add_assoc]

/-! ## The upper half of a word

No write separates the bits 31 to 63 of a word, so they always agree. -/

def Uniform (s : Phys) (w : Nat) : Prop :=
  ∀ i j, i / 64 = w → j / 64 = w → 31 ≤ i % 64 → 31 ≤ j % 64 → bitmapGet s i = bitmapGet s j

theorem bitmapSet_uniform (h : Uniform s w) (i : Nat) (v : Bool) :
    Uniform (bitmapSet s i v) w := by
  intro a b ha hb ha31 hb31
  have key : Hit i (a % 64) ↔ Hit i (b % 64) := by
    unfold Hit
    split_ifs <;> omega
  rw [bitmapGet_bitmapSet, bitmapGet_bitmapSet, ha, hb, h a b ha hb ha31 hb31]
  simp only [key]

theorem bitmapSetRun_uniform (h : Uniform s w) (start : Nat) (v : Bool)
    (n : Nat) : Uniform (bitmapSetRun s start v n) w := by
  induction n with
  | zero => exact h
  | succ n ih => exact bitmapSet_uniform ih _ v

structure ScanInv (free : Nat → Bool) (pages i n start : Nat) : Prop where
  short : n < pages
  le : n ≤ i
  start_eq : n ≠ 0 → start = i - n
  run : ∀ t, i - n ≤ t → t < i → free t = true
  border : n < i → free (i - n - 1) = false
  none_before : ∀ s, s + pages ≤ i → ∃ t, s ≤ t ∧ t < s + pages ∧ free t = false

theorem ScanInv.zero (free : Nat → Bool) (hp : 0 < pages) (start : Nat) :
    ScanInv free pages 0 0 start :=
  ⟨hp, le_refl 0, fun h => absurd rfl h, by omega, by omega, by omega⟩

theorem ScanInv.busy (h : ScanInv free pages i n start) (hi : free i = false) (start' : Nat) :
    ScanInv free pages (i + 1) 0 start' := by
  have hp := h.short
  refine ⟨by omega, by omega, fun h => absurd rfl h, by omega, fun _ => hi, ?_⟩
  intro s hs
  by_cases hle : s + pages ≤ i
  · exact h.none_before s hle
  · exact ⟨i, by omega, by omega, hi⟩

theorem ScanInv.more (h : ScanInv free pages i n start) (hi : free i = true) (hn : n + 1 ≠ pages) :
    ScanInv free pages (i + 1) (n + 1) (if n = 0 then i else start) := by
  have hp := h.short
  have hle := h.le
  refine ⟨by omega, by omega, fun _ => ?_, ?_, ?_, ?_⟩
  · split_ifs with h0
    · omega
    · have := h.start_eq h0
      omega
  · intro t ht hlt
    by_cases hti : t = i
    · exact hti ▸ hi
    · exact h.run t (by omega) (by omega)
  · intro hlt
    have hb := h.border (by omega)
    have heq : i + 1 - (n + 1) - 1 = i - n - 1 := by omega
    rw [heq]
    exact hb
  · intro s hs
    by_cases hle' : s + pages ≤ i
    · exact h.none_before s hle'
    · -- the window ends at `i`, so it reaches past the border of the current run
      exact ⟨i - n - 1, by omega, by omega, h.border (by omega)⟩

theorem scan_null (free : Nat → Bool) (pageAt : Nat → Nat) (pages k i : Nat)
    (hnull : ∀ t, i ≤ t → t < i + k → pageAt t = 0) (n start : Nat)
    (hstart : n ≠ 0 → pageAt start = 0) :
    scan free pageAt pages k i n start = none := by
  induction k generalizing i n start with
  | zero => rfl
  | succ k ih =>
    have hrest : ∀ t, i + 1 ≤ t → t < i + 1 + k → pageAt t = 0 :=
      fun t h1 h2 => hnull t (by omega) (by omega)
    have hcur : pageAt (if n = 0 then i else start) = 0 := by
      split_ifs with h0
      · exact hnull i (by omega) (by omega)
      · exact hstart h0
    have hzero := fun st => ih (i + 1) hrest 0 st (fun h => absurd rfl h)
    simp only [scan, hcur, if_true, hzero, ih (i + 1) hrest (n + 1) _ (fun _ => hcur), ite_self]

/-- The chosen run is the lowest one: every earlier window contains a page in use.
Null pages may only stand behind all others. -/
theorem scan_least (hinv : ScanInv free pages i n start)
    (hnull : ∀ t u, t ≤ u → u < i + k → pageAt u ≠ 0 → pageAt t ≠ 0) {s a : Nat}
    (h : scan free pageAt pages k i n start = some (s, a)) :
    a = pageAt s ∧ a ≠ 0 ∧ s + pages ≤ i + k ∧ (∀ t, s ≤ t → t < s + pages → free t = true) ∧
      ∀ s', s' < s → ∃ t, s' ≤ t ∧ t < s' + pages ∧ free t = false := by
  induction k generalizing i n start with
  | zero => exact absurd h (by simp [scan])
  | succ k ih =>
    have hnull' : ∀ t u, t ≤ u → u < i + 1 + k → pageAt u ≠ 0 → pageAt t ≠ 0 :=
      fun t u h1 h2 => hnull t u h1 (by omega)
    have hp := hinv.short
    have hle := hinv.le
    rw [scan] at h
    by_cases hi : free i = true
    · simp only [hi, if_true] at h
      have hst : (if n = 0 then i else start) = i - n := by
        split_ifs with h0
        · omega
        · exact hinv.start_eq h0
      by_cases hn : n + 1 = pages
      · rw [if_pos hn, hst] at h
        by_cases hz : pageAt (i - n) = 0
        · -- a null page: everything behind it is null as well
          rw [if_pos hz] at h
          have hrest := scan_null free pageAt pages k (i + 1) (by
            intro t h1 h2
            by_contra hne
            exact hnull (i - n) t (by omega) (by omega) hne hz) 0 (i - n) (fun h => absurd rfl h)
          rw [hrest] at h
          cases h
        · rw [if_neg hz] at h
          cases h
          refine ⟨rfl, hz, by omega, ?_, ?_⟩
          · intro t h1 h2
            by_cases hti : t = i
            · exact hti ▸ hi
            · exact hinv.run t h1 (by omega)
          · intro s' hs'
            by_cases hle' : s' + pages ≤ i
            · exact hinv.none_before s' hle'
            · exact ⟨i - n - 1, by omega, by omega, hinv.border (by omega)⟩
      · rw [if_neg hn] at h
        obtain ⟨h1, h2, h3, h4⟩ := ih (hinv.more hi hn) hnull' h
        exact ⟨h1, h2, by omega, h4⟩
    · have hi' : free i = false := by simpa using hi
      simp only [hi', Bool.false_eq_true, if_false] at h
      obtain ⟨h1, h2, h3, h4⟩ := ih (hinv.busy hi' _) hnull' h
      exact ⟨h1, h2, by omega, h4⟩

theorem scan_none (hinv : ScanInv free pages i n start) (hat : ∀ t, t < i + k → pageAt t ≠ 0)
    (h : scan free pageAt pages k i n start = none) (s : Nat) (hs : s + pages ≤ i + k) :
    ∃ t, s ≤ t ∧ t < s + pages ∧ free t = false := by
  induction k generalizing i n start with
  | zero => exact hinv.none_before s hs
  | succ k ih =>
    have hat' : ∀ t, t < i + 1 + k → pageAt t ≠ 0 := fun t ht => hat t (by omega)
    rw [scan] at h
    by_cases hi : free i = true
    · simp only [hi, if_true] at h
      by_cases hn : n + 1 = pages
      · -- a window is complete, and its page is not null
        have hst : (if n = 0 then i else start) ≤ i := by
          have := hinv.start_eq
          split_ifs with h0
          · exact le_rfl
          · have := this h0
            omega
        rw [if_pos hn, if_neg (hat _ (by omega))] at h
        cases h
      · rw [if_neg hn] at h
        exact ih (hinv.more hi hn) hat' h (by omega)
    · have hi' : free i = false := by simpa using hi
      simp only [hi', Bool.false_eq_true, if_false] at h
      exact ih (hinv.busy hi' _) hat' h (by omega)

def FreeWindow (free : Nat → Bool) (pages count s : Nat) : Prop :=
  s + pages ≤ count ∧ ∀ t, s ≤ t → t < s + pages → free t = true

/-- The search delivers the lowest window, and null only if there is none. -/
theorem scan_selects_least {free : Nat → Bool} {pageAt : Nat → Nat} {pages count : Nat} (hp : 1 ≤ pages)
    (hat : ∀ i, i < count → pageAt i ≠ 0) :
    (∀ s a, scan free pageAt pages count 0 0 0 = some (s, a) ↔
      IsLeast {s | FreeWindow free pages count s} s ∧ a = pageAt s) ∧
    (((scan free pageAt pages count 0 0 0).elim 0 fun r => r.2) = 0 ↔
      ∀ s, ¬ FreeWindow free pages count s) := by
  have hinv : ScanInv free pages 0 0 0 := ScanInv.zero free hp 0
  have hnull : ∀ t u, t ≤ u → u < 0 + count → pageAt u ≠ 0 → pageAt t ≠ 0 :=
    fun t u htu hu _ => hat t (by omega)
  have hbusy : ∀ s, (∃ t, s ≤ t ∧ t < s + pages ∧ free t = false) → ¬ FreeWindow free pages count s := by
    rintro s ⟨t, hst, ht, hfree⟩ ⟨-, hall⟩
    rw [hall t hst ht] at hfree
    cases hfree
  have hsome : ∀ s a, scan free pageAt pages count 0 0 0 = some (s, a) →
      IsLeast {s | FreeWindow free pages count s} s ∧ a = pageAt s ∧ a ≠ 0 := by
    intro s a h
    obtain ⟨ha, ha0, hle, hall, hleast⟩ := scan_least hinv hnull h
    refine ⟨⟨⟨by omega, hall⟩, fun s' hs' => ?_⟩, ha, ha0⟩
    by_contra hlt
    exact hbusy s' (hleast s' (not_le.mp hlt)) hs'
  have hnone : scan free pageAt pages count 0 0 0 = none → ∀ s, ¬ FreeWindow free pages count s := by
    intro h s hs
    have hcount : s + pages ≤ 0 + count := by
      have := hs.1
      omega
    exact hbusy s (scan_none hinv (fun t ht => hat t (by omega)) h s hcount) hs
  cases hscan : scan free pageAt pages count 0 0 0 with
  | none =>
    refine ⟨fun s a => ⟨nofun, fun h => absurd h.1.1 (hnone hscan s)⟩, ?_⟩
    rw [elim_none]
    exact ⟨fun _ => hnone hscan, fun _ => rfl⟩
  | some r =>
    obtain ⟨s₀, a₀⟩ := r
    obtain ⟨hleast, ha, ha0⟩ := hsome s₀ a₀ hscan
    constructor
    · intro s a
      rw [some.injEq, Prod.mk.injEq]
      constructor
      · rintro ⟨rfl, rfl⟩
        exact ⟨hleast, ha⟩
      · rintro ⟨hs, rfl⟩
        obtain rfl := hleast.unique hs
        exact ⟨rfl, ha⟩
    · rw [elim_some]
      exact ⟨fun h => absurd h ha0, fun h => absurd hleast.1 (h s₀)⟩

/-- Two free pages behind one in use. -/
theorem scan_selects_second : 1 ≤ 2 ∧ (∀ i, i < 4 → 4096 * (i + 1) ≠ 0) ∧
    IsLeast {s | FreeWindow (fun i => decide (i ≠ 0)) 2 4 s} 1 := by
  have hat : ∀ i, i < 4 → 4096 * (i + 1) ≠ 0 := fun i _ => by omega
  have hscan : scan (fun i => decide (i ≠ 0)) (fun i => 4096 * (i + 1)) 2 4 0 0 0 = some (1, 8192) := by
    decide
  exact ⟨by decide, hat, (((scan_selects_least (by decide) hat).1 1 8192).mp hscan).1⟩

end Comus.PhysAlloc
