import Comus.Term.Redraw

/-!
# A newline in the last row

On a terminal whose size does not change, the line counter grows by one with every newline in
the last row. At its reserved value `buffer_check` takes the buffer for a new one and clears it.
-/

namespace Comus.Terminal

open Option

variable {s t : Term} {w h n k : Nat} {c : UInt8}

def MovedUp (s t : Term) : Prop :=
  ∀ i, i < s.width → (∀ j, j + 1 < s.height → t.cell i j = s.cell i (j + 1)) ∧ t.cell i (s.height - 1) = 0

/-- The terminal after boot, or resized once to a size with a row. -/
def Start (s : Term) : Prop :=
  s = boot ∨ ∃ w h, 0 < h % TERM_MAX_HEIGHT ∧ termResize boot w h = some s

/-- A state between two calls of `term_out` on a screen of `w` columns and `h` rows. -/
structure Fixed (w h : Nat) (s : Term) : Prop where
  width : s.width = w
  height : s.height = h
  last : s.lastWidth = w
  wide : w < 1920
  high : h < 1080
  column : s.x < 1920
  row : s.y < h
  line : s.bufferLine ≤ UINT16_MAX
  unused : s.bufferLine = UINT16_MAX → s.y + 1 < h

theorem boot_fixed : Fixed 80 25 boot :=
  ⟨rfl, rfl, rfl, by decide, by decide, by decide, by decide, by decide, fun _ => by decide⟩

theorem resized_fixed (hh : 0 < n % TERM_MAX_HEIGHT) (ht : termResize boot k n = some t) :
    Fixed (k % TERM_MAX_WIDTH) (n % TERM_MAX_HEIGHT) t := by
  have hre := termRedraw_spec ht
  generalize hu : ({ boot with width := k % TERM_MAX_WIDTH, height := n % TERM_MAX_HEIGHT } : Term) = u at hre
  obtain ⟨hx, hy, hwidth, hheight, -⟩ := bufferCheck_fields u
  have hline : (bufferCheck u).bufferLine < UINT16_MAX := bufferCheck_line (hu ▸ le_refl UINT16_MAX)
  have hsize : (bufferCheck u).width = k % TERM_MAX_WIDTH := by rw [hwidth, ← hu]
  refine ⟨hre.size.1.trans hsize, ?_, hre.last.trans hsize, Nat.mod_lt _ (by decide),
    Nat.mod_lt _ (by decide), ?_, ?_, ?_, fun hmax => ?_⟩
  · rw [hre.size.2, hheight, ← hu]
  · rw [hre.cursor.1, hx, ← hu]
    exact (by decide : 0 < 1920)
  · rw [hre.cursor.2, hy, ← hu]
    exact hh
  · rw [hre.line]
    exact Nat.le_of_lt hline
  · rw [hre.line] at hmax
    exact absurd hmax (Nat.ne_of_lt hline)

theorem Start.fixed (hs : Start s) : ∃ w h, Fixed w h s := by
  rcases hs with rfl | ⟨w, h, hh, ht⟩
  · exact ⟨80, 25, boot_fixed⟩
  · exact ⟨_, _, resized_fixed hh ht⟩

theorem termOutAt_fields (s : Term) (c : UInt8) (x y : Nat) :
    (termOutAt s c x y).x = s.x ∧ (termOutAt s c x y).y = s.y ∧ (termOutAt s c x y).width = s.width ∧
    (termOutAt s c x y).height = s.height ∧ (termOutAt s c x y).lastWidth = s.lastWidth ∧
    (termOutAt s c x y).bufferLine = (bufferCheck s).bufferLine := by
  obtain ⟨hx, hy, hw, hh, hl, -, -⟩ := bufferCheck_fields s
  unfold termOutAt
  split_ifs
  · exact ⟨hx, hy, hw, hh, hl, rfl⟩
  · exact ⟨hx, hy, hw, hh, hl, rfl⟩

theorem advance_x_lt_max (h : s.width < 1920) : (advance s c).x < 1920 := by
  rcases eq_zero_or_pos s.width with hzero | hpos
  · unfold advance
    dsimp only
    split_ifs <;> dsimp only at * <;> omega
  · exact Nat.lt_trans (advance_x_lt hpos) h

theorem termScroll_fields (ht : termScroll s 1 = some t) : t.x = s.x ∧ t.y = s.y ∧ t.width = s.width ∧
    t.height = s.height ∧ t.lastWidth = s.width ∧ t.bufferLine = (scrolled s).bufferLine ∧
    ∀ i j, t.cell i j = (scrolled s).cell i j := by
  obtain ⟨hx, hy, hw, hh, -, -⟩ := scrolled_fields s
  have hre := termRedraw_spec ((termScroll_one s).symm.trans ht)
  rw [bufferCheck_of_ne (Nat.ne_of_lt (scrolled_line s))] at hre
  exact ⟨hre.cursor.1.trans hx, hre.cursor.2.trans hy, hre.size.1.trans hw, hre.size.2.trans hh,
    hre.last.trans hw, hre.line, hre.cell⟩

theorem Fixed.out (hs : Fixed w h s) (ht : termOut s c = some t) : Fixed w h t := by
  obtain ⟨hx, hy, hw, hh, hl, hline⟩ := termOutAt_fields s c s.x s.y
  have hlt : (termOutAt s c s.x s.y).bufferLine < UINT16_MAX := by
    rw [hline]
    exact bufferCheck_line hs.line
  have hwide := hs.wide
  have hhigh := hs.high
  have hrow := hs.row
  unfold termOut termMoveCur at ht
  generalize termOutAt s c s.x s.y = u at *
  have hcol : (advance u c).x < 1920 := advance_x_lt_max (by rw [hw, hs.width]; exact hwide)
  have hadv := advance_eq u c
  generalize advance u c = v at *
  have hvwidth : v.width = w := by rw [hadv]; exact hw.trans hs.width
  have hvheight : v.height = h := by rw [hadv]; exact hh.trans hs.height
  split_ifs at ht with hc hbelow
  · cases ht
    exact ⟨hw.trans hs.width, hh.trans hs.height, hl.trans hs.last, hwide, hhigh, hx ▸ hs.column,
      hy ▸ hrow, Nat.le_of_lt hlt, fun hmax => absurd hmax (Nat.ne_of_lt hlt)⟩
  · obtain ⟨htx, hty, htw, hth, htl, htline, -⟩ := termScroll_fields ht
    have htlt : t.bufferLine < UINT16_MAX := by
      rw [htline]
      exact scrolled_line _
    refine ⟨htw.trans hvwidth, hth.trans hvheight, htl.trans hvwidth, hwide, hhigh, htx ▸ hcol, ?_,
      Nat.le_of_lt htlt, fun hmax => absurd hmax (Nat.ne_of_lt htlt)⟩
    rw [hty]
    dsimp only
    rw [hvheight, lastRow_of_pos (by omega) hhigh]
    omega
  · obtain rfl := some.inj ht
    have hvline : v.bufferLine < UINT16_MAX := by
      rw [hadv]
      exact hlt
    refine ⟨hvwidth, hvheight, ?_, hwide, hhigh, hcol, by omega, Nat.le_of_lt hvline,
      fun hmax => absurd hmax (Nat.ne_of_lt hvline)⟩
    rw [hadv]
    exact hl.trans hs.last

theorem Start.reach_fixed {s₀ : Term} (hstart : Start s₀) (hrun : Run.Reach termOut Run.anyOp s₀ s) :
    ∃ w h, Fixed w h s := by
  obtain ⟨w, h, hfixed⟩ := hstart.fixed
  exact ⟨w, h, hrun.invariant hfixed fun _ _ _ hs _ ht => hs.out ht⟩

theorem Fixed.newline_eq (hs : Fixed w h s) (hlast : s.y + 1 = s.height) :
    termOut s 10 = termScroll { s with x := 0 } 1 := by
  have hhigh := hs.high
  have hheight := hs.height
  have hcheck : bufferCheck s = s := bufferCheck_of_ne fun hmax => by
    have := hs.unused hmax
    omega
  have hout : termOutAt s 10 s.x s.y = s := by
    unfold termOutAt
    rw [if_neg (by decide), hcheck]
  have hy : (s.y + 1) % 2^16 = s.height := by omega
  have hadv : ∃ y, s.height ≤ y ∧ advance s 10 = { s with x := 0, y := y } := by
    unfold advance
    dsimp only
    rw [if_pos rfl, hy]
    split_ifs
    · exact ⟨(s.height + 1) % 2^16, by omega, rfl⟩
    · exact ⟨s.height, le_rfl, rfl⟩
  obtain ⟨y, hle, hadv⟩ := hadv
  have hrow : lastRow s.height = s.y := by
    rw [lastRow_of_pos (by omega) (by omega)]
    omega
  unfold termOut termMoveCur
  rw [hout, if_neg (by decide), hadv, if_pos hle]
  dsimp only
  rw [hrow]

theorem Fixed.newline_counts (hs : Fixed w h s) (hlast : s.y + 1 = s.height)
    (hline : s.bufferLine + 1 < UINT16_MAX) :
    ∃ t, termOut s 10 = some t ∧ t.bufferLine = s.bufferLine + 1 ∧ t.x = 0 ∧ t.y = s.y ∧ MovedUp s t := by
  have hwide : s.width < 1920 := hs.width ▸ hs.wide
  have hhigh : s.height < 1080 := hs.height ▸ hs.high
  have hcell {i j : Nat} (hi : i < s.width) (hj : j < s.height) :
      (scrolled { s with x := 0 }).cell i j = if j = s.y then 0 else s.cell i (j + 1) := by
    rw [scrolled_cell (s := { s with x := 0 }) hline hwide (by dsimp only; omega) (by omega) (by omega)]
    simp only [hi, true_and, (by omega : s.y ≤ s.height), and_true]
    rfl
  obtain ⟨t, ht⟩ := termScroll_isSome (s := { s with x := 0 }) hline hwide hhigh (by dsimp only; omega)
  obtain ⟨htx, hty, -, -, -, htline, htcell⟩ := termScroll_fields ht
  refine ⟨t, (hs.newline_eq hlast).trans ht, ?_, htx, hty, fun i hi => ⟨fun j hj => ?_, ?_⟩⟩
  · rw [htline]
    exact scrolled_bufferLine hline
  · rw [htcell, hcell hi (by omega), if_neg (by omega)]
  · rw [htcell, hcell hi (by omega), if_pos (by omega)]

/-- At the reserved value every cell is cleared. -/
theorem scrolled_cell_reset (hmax : s.bufferLine + 1 = UINT16_MAX) (i j : Nat) : (scrolled s).cell i j = 0 := by
  have hmod : (s.bufferLine + 1) % 2^16 = UINT16_MAX := by
    rw [hmax]
    rfl
  have hcheck : (bufferCheck { s with bufferLine := (s.bufferLine + 1) % 2^16 }).buffer = fun _ => 0 := by
    unfold bufferCheck
    rw [if_pos hmod]
  change (termClearLine { s with bufferLine := (s.bufferLine + 1) % 2^16 } s.y).buffer _ = 0
  unfold termClearLine
  split_ifs
  · rw [hcheck]
  · rw [(clearCols_spec _ _ _).2.2, hcheck, ite_self]

theorem Fixed.newline_iff (hs : Fixed w h s) (hlast : s.y + 1 = s.height) :
    (∃ t, termOut s 10 = some t ∧ MovedUp s t) ↔ s.bufferLine + 1 ≠ UINT16_MAX ∨
      s.width ≠ s.height ∧ ∀ i j, i < s.width → j + 1 < s.height → s.cell i (j + 1) = 0 := by
  have hmode : SkipMode { s with x := 0 } ↔ s.width = s.height := by
    unfold SkipMode
    dsimp only
    rw [hs.last, hs.width]
    exact ⟨fun h => h.1, fun h => ⟨h, rfl⟩⟩
  by_cases hmax : s.bufferLine + 1 = UINT16_MAX
  · by_cases hskip : s.width = s.height
    · -- the redraw reads in front of the buffer
      rw [hs.newline_eq hlast, termScroll_none (s := { s with x := 0 }) (hmode.mpr hskip) (by dsimp only; omega)
        (by dsimp only; omega) hmax]
      constructor
      · rintro ⟨t, ht, -⟩
        cases ht
      · rintro (hne | ⟨hne, -⟩)
        · exact absurd hmax hne
        · exact absurd hskip hne
    · obtain ⟨t, ht⟩ := termScroll_isSome_of_not_skip (s := { s with x := 0 }) (mt hmode.mp hskip)
      have htcell (i j : Nat) : t.cell i j = 0 := by
        rw [(termScroll_fields ht).2.2.2.2.2.2]
        exact scrolled_cell_reset (s := { s with x := 0 }) hmax i j
      have hblank : MovedUp s t ↔ ∀ i j, i < s.width → j + 1 < s.height → s.cell i (j + 1) = 0 := by
        unfold MovedUp
        simp only [htcell, and_true]
        exact ⟨fun hall i j hi hj => (hall i hi j hj).symm, fun hall i hi j hj => (hall i j hi hj).symm⟩
      rw [hs.newline_eq hlast, ht, ← hblank]
      simp [hmax, hskip]
  · have hline : s.bufferLine + 1 < UINT16_MAX := by
      have hle := hs.line
      have hunused := hs.unused
      have hheight := hs.height
      omega
    obtain ⟨t, ht, -, -, -, hmoved⟩ := hs.newline_counts hlast hline
    exact ⟨fun _ => .inl hmax, fun _ => ⟨t, ht, hmoved⟩⟩

/-- In every state that output on a terminal of fixed size can reach, a newline in the last row
moves the rows up by one exactly if the counter does not come to its reserved value, or there is
nothing to move and the screen is not square. -/
theorem newline_scrolls_iff {s₀ : Term} (hstart : Start s₀) (hrun : Run.Reach termOut Run.anyOp s₀ s)
    (hlast : s.y + 1 = s.height) :
    (∃ t, termOut s 10 = some t ∧ MovedUp s t) ↔ s.bufferLine + 1 ≠ UINT16_MAX ∨
      s.width ≠ s.height ∧ ∀ i j, i < s.width → j + 1 < s.height → s.cell i (j + 1) = 0 := by
  obtain ⟨w, h, hs⟩ := hstart.reach_fixed hrun
  exact hs.newline_iff hlast

theorem newline_scrolls_one_row : ∃ s, termResize boot 2 1 = some s ∧ s.y + 1 = s.height ∧
    ∃ t, termOut s 10 = some t ∧ MovedUp s t := by
  have hexec : (termResize boot 2 1).map (fun s => (s.y, s.height, s.bufferLine)) = some (0, 1, 0) := by
    decide +kernel
  obtain ⟨s, hs, hfields⟩ := map_eq_some_iff.mp hexec
  simp only [Prod.mk.injEq] at hfields
  obtain ⟨hy, hheight, hline⟩ := hfields
  have hlast : s.y + 1 = s.height := by omega
  refine ⟨s, hs, hlast, (newline_scrolls_iff (.inr ⟨2, 1, by decide, hs⟩) .start hlast).mpr (.inl ?_)⟩
  rw [hline]
  decide

theorem counted_lines (k : Nat) (hk : k < UINT16_MAX) : ∃ s, Run.Reach termOut Run.anyOp boot s ∧
    Fixed 80 25 s ∧ s.x = 0 ∧ s.y = 24 ∧ s.bufferLine = k := by
  induction k with
  | zero =>
    have hexec : (Run.exec termOut boot (List.replicate 24 10)).map (fun s => (s.x, s.y, s.bufferLine)) =
        some (0, 24, 0) := by decide +kernel
    obtain ⟨s, hs, hfields⟩ := map_eq_some_iff.mp hexec
    simp only [Prod.mk.injEq] at hfields
    have hreach : Run.Reach termOut Run.anyOp boot s := Run.Reach.start.exec hs
    exact ⟨s, hreach, hreach.invariant boot_fixed fun _ _ _ hs _ ht => hs.out ht, hfields⟩
  | succ k ih =>
    obtain ⟨s, hreach, hs, -, hy, hline⟩ := ih (by omega)
    have hlast : s.y + 1 = s.height := by rw [hy, hs.height]
    obtain ⟨t, ht, htline, htx, hty, -⟩ := hs.newline_counts hlast (by omega)
    exact ⟨t, .step 10 hreach trivial ht, hs.out ht, htx, hty.trans hy, by omega⟩

theorem termOut_print (hc : printable c) (hline : s.bufferLine ≠ UINT16_MAX) (hx : s.x + 1 < s.width)
    (hw : s.width < 1920) (hy : s.y < s.height) :
    termOut s c = some { s.put c s.x s.y with x := s.x + 1 } := by
  unfold printable at hc
  simp only [Bool.not_eq_eq_eq_not, Bool.not_true, decide_eq_false_iff_not, not_or] at hc
  obtain ⟨h0, hnl, htab, hvt, hff, hcr⟩ := hc
  have hout : termOutAt s c s.x s.y = s.put c s.x s.y := by
    unfold termOutAt printable
    rw [bufferCheck_of_ne hline, if_pos (by simp [h0, hnl, htab, hvt, hff, hcr])]
  have hadv : advance (s.put c s.x s.y) c = { s.put c s.x s.y with x := s.x + 1 } := by
    have hmod : (s.x + 1) % 2^16 = s.x + 1 := by omega
    unfold advance
    dsimp only
    rw [if_neg hnl, if_neg htab, if_neg (not_or.mpr ⟨hvt, hff⟩), if_neg hcr]
    change (if (s.x + 1) % 2^16 ≥ s.width then _ else _) = _
    rw [hmod, if_neg (by omega)]
    change ({ s.put c s.x s.y with x := (s.x + 1) % 2^16 } : Term) = _
    rw [hmod]
  unfold termOut termMoveCur
  rw [hout, if_neg h0, hadv]
  exact if_neg (not_le.mpr hy)

/-- A character printed in the last row after 65534 lines is lost with the next newline. -/
theorem newline_loses_row : ∃ s t, Run.Reach termOut Run.anyOp boot s ∧ s.y + 1 = s.height ∧
    termOut s 10 = some t ∧ s.cell 0 24 = 65 ∧ t.cell 0 23 = 0 ∧ ¬ MovedUp s t := by
  obtain ⟨s, hreach, hs, hx, hy, hline⟩ := counted_lines 65534 (by decide)
  have hprint := termOut_print (s := s) (c := 65) (by decide) (by rw [hline]; decide)
    (by rw [hx, hs.width]; decide) (by rw [hs.width]; decide) (by rw [hy, hs.height]; decide)
  generalize hu : ({ s.put 65 s.x s.y with x := s.x + 1 } : Term) = u at hprint
  have hfixed : Fixed 80 25 u := hs.out hprint
  have hlast : u.y + 1 = u.height := by
    rw [← hu]
    change s.y + 1 = s.height
    rw [hy, hs.height]
  have hmax : u.bufferLine + 1 = UINT16_MAX := by
    rw [← hu]
    change s.bufferLine + 1 = UINT16_MAX
    rw [hline]
    rfl
  have hcell : u.cell 0 24 = 65 := by
    rw [← hu]
    change (s.put 65 s.x s.y).cell 0 24 = 65
    rw [put_buffer (by decide) (by decide) (by omega) (by omega), if_pos (by omega)]
  have hsquare : ¬ SkipMode { u with x := 0 } := by
    intro hskip
    have hwh : u.lastWidth = u.height := hskip.1
    rw [hfixed.last, hfixed.height] at hwh
    cases hwh
  obtain ⟨t, ht⟩ := termScroll_isSome_of_not_skip hsquare
  have hlost : t.cell 0 23 = 0 := by
    rw [(termScroll_fields ht).2.2.2.2.2.2]
    exact scrolled_cell_reset (s := { u with x := 0 }) hmax 0 23
  refine ⟨u, t, .step 65 hreach trivial hprint, hlast, (hfixed.newline_eq hlast).trans ht, hcell, hlost, ?_⟩
  intro hmoved
  have hrow := (hmoved 0 (by rw [hfixed.width]; decide)).1 23 (by rw [hfixed.height]; decide)
  rw [hlost, hcell] at hrow
  cases hrow

end Comus.Terminal
