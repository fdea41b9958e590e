import Comus.Lib.Run
import Comus.Term.Screen

/-!
# What the screen shows after a redraw

In skip mode `term_redraw` compares the buffer with an earlier scroll position of
itself and not with what has been drawn. For every call that redraws, in every state
reached so far without a wrong screen, it is said exactly when the screen is right.
-/

namespace Comus.Terminal

open Option Function

def Synced (s : Term) : Prop :=
  ∀ i j, i < s.width → j < s.height → s.screen i j = some (s.cell i j)

abbrev Size (max : Nat) : Type := {n : Nat // 0 < n ∧ n < max}

inductive Op where
  | out (c : UInt8)
  | scroll
  | resize (w : Size TERM_MAX_WIDTH) (h : Size TERM_MAX_HEIGHT)

def step (s : Term) : Op → Option Term
  | .out c => termOut s c
  | .scroll => termScroll s 1
  | .resize w h => termResize s w h

def Scrolls (s : Term) (c : UInt8) : Prop :=
  c ≠ 0 ∧ (advance (termOutAt s c s.x s.y) c).y ≥ (advance (termOutAt s c s.x s.y) c).height

def beforeScroll (s : Term) (c : UInt8) : Term :=
  { advance (termOutAt s c s.x s.y) c with
    y := (advance (termOutAt s c s.x s.y) c).height - 1 }

def Redraws (s : Term) : Op → Prop
  | .out c => Scrolls s c
  | .scroll => True
  | .resize _ _ => True

/-- A scroll in skip mode is right unless the line counter comes to its reserved value, or
the row below the cursor has a character where the row that moves up to it has none:
`term_clear_line` has already cleared what the comparison then reads. -/
def ScrollShown (s : Term) : Prop :=
  SkipMode s → s.bufferLine + 1 ≠ UINT16_MAX ∧
    (s.y + 1 < s.height → ∀ i, i < s.width → s.cell i (s.y + 2) = 0 → s.cell i (s.y + 1) = 0)

/-- A resize in skip mode draws nothing, so the cells of the new size must already be right. -/
def Shown (s : Term) : Op → Prop
  | .out c => Scrolls s c → ScrollShown (beforeScroll s c)
  | .scroll => ScrollShown s
  | .resize w h => s.lastWidth = h ∧ s.lastWidth = w →
      ∀ i j, i < w.val → j < h.val → s.screen i j = some ((bufferCheck s).cell i j)

variable {s t : Term} {i j n line x y : Nat} {c : UInt8}

theorem bufIdx_inj {i' j' : Nat} (hi : i < 1920) (hi' : i' < 1920) (hj : j < 1080) (hj' : j' < 1080) :
    bufIdx line i j = bufIdx line i' j' ↔ i = i' ∧ j = j' := by
  unfold bufIdx TERM_MAX_HEIGHT TERM_MAX_WIDTH
  omega

theorem bufIdx_succ (line i j : Nat) : bufIdx (line + 1) i j = bufIdx line i (j + 1) := by
  unfold bufIdx
  rw [add_right_comm, add_assoc]

theorem put_buffer (hi : i < 1920) (hj : j < 1080) (hx : x < 1920) (hy : y < 1080) :
    (s.put c x y).cell i j = if i = x ∧ j = y then c else s.cell i j := by
  change update s.buffer (bufIdx s.bufferLine x y) c (bufIdx s.bufferLine i j) = _
  unfold update
  simp only [bufIdx_inj hi hx hj hy, eq_rec_constant, dite_eq_ite]
  rfl

theorem Synced.put (h : Synced s) (hw : s.width < 1920) (hh : s.height < 1080) (hx : x < 1920)
    (hy : y < 1080) : Synced (s.put c x y) := by
  intro i j hi hj
  change i < s.width at hi
  change j < s.height at hj
  rw [put_buffer (by omega) (by omega) hx hy]
  change (if i = x ∧ j = y then some c else s.screen i j) = _
  rw [h i j hi hj]
  split_ifs <;> rfl

theorem clearCols_spec (s : Term) (line n : Nat) :
    clearCols s line n = { s with
      buffer := (clearCols s line n).buffer
      screen := (clearCols s line n).screen } ∧
    (∀ a b, (clearCols s line n).screen a b =
      if a < n ∧ b = line then some 0 else s.screen a b) ∧
    ∀ k, (clearCols s line n).buffer k =
      if ∃ a, a < n ∧ k = bufIdx s.bufferLine a line then 0 else s.buffer k := by
  induction n with
  | zero => exact ⟨rfl, fun a b => by simp [clearCols], fun k => by simp [clearCols]⟩
  | succ n ih =>
    obtain ⟨hsame, hscreen, hbuffer⟩ := ih
    have hline : (clearCols s line n).bufferLine = s.bufferLine := by rw [hsame]
    refine ⟨?_, fun a b => ?_, fun k => ?_⟩
    · rw [clearCols, Term.put, Term.draw, hsame]
    · change (if a = n ∧ b = line then some 0 else (clearCols s line n).screen a b) = _
      rw [hscreen]
      by_cases ha : a = n
      · subst ha
        by_cases hb : b = line <;> simp [hb]
      · have hlt : a < n + 1 ↔ a < n := by omega
        simp only [ha, false_and, if_false, hlt]
    · change update (clearCols s line n).buffer
        (bufIdx (clearCols s line n).bufferLine n line) 0 k = _
      rw [hline]
      by_cases hk : k = bufIdx s.bufferLine n line
      · rw [hk, update_self, if_pos ⟨n, by omega, rfl⟩]
      · rw [update_of_ne hk, hbuffer]
        have hiff : (∃ a, a < n + 1 ∧ k = bufIdx s.bufferLine a line) ↔
            ∃ a, a < n ∧ k = bufIdx s.bufferLine a line := by
          constructor
          · rintro ⟨a, ha, hka⟩
            have hne : a ≠ n := fun he => hk (he ▸ hka)
            exact ⟨a, by omega, hka⟩
          · rintro ⟨a, ha, hka⟩
            exact ⟨a, by omega, hka⟩
        simp only [hiff]

theorem bufferCheck_of_ne (h : s.bufferLine ≠ UINT16_MAX) : bufferCheck s = s := if_neg h

structure Redrawn (s t : Term) : Prop where
  cell : ∀ i j, t.cell i j = s.cell i j
  screen : ∀ a b, t.screen a b =
    if (a < s.width ∧ b < s.height) ∧ ¬ Skipped s a b then some (s.cell a b) else s.screen a b
  cursor : t.x = s.x ∧ t.y = s.y
  size : t.width = s.width ∧ t.height = s.height
  last : t.lastWidth = s.width
  scrolling : t.scrolling = 0
  line : t.bufferLine = s.bufferLine

theorem termRedraw_spec (h : termRedraw s = some t) : Redrawn (bufferCheck s) t := by
  obtain ⟨u, hu, rfl⟩ := map_eq_some_iff.mp h
  obtain ⟨hsame, hscreen⟩ := redrawRows_spec hu
  have hcell := hsame.cell
  refine ⟨hcell, hscreen, ?_, ?_, ?_, rfl, ?_⟩
  all_goals rw [hsame]
  all_goals simp

theorem Redrawn.synced_iff (h : Redrawn s t) : Synced t ↔
    ∀ i j, i < s.width → j < s.height → Skipped s i j → s.screen i j = some (s.cell i j) := by
  unfold Synced
  rw [h.size.1, h.size.2]
  constructor
  · intro hsync i j hi hj hskip
    have := hsync i j hi hj
    rw [h.cell, h.screen, if_neg fun hnot => hnot.2 hskip] at this
    exact this
  · intro hskip i j hi hj
    rw [h.cell, h.screen]
    split_ifs with hdraw
    · rfl
    · exact hskip i j hi hj (by
        by_contra hnot
        exact hdraw ⟨⟨hi, hj⟩, hnot⟩)

theorem termRedraw_isSome (h : SkipMode (bufferCheck s) → ∀ a b, prevAt (bufferCheck s) a b ≠ none) :
    ∃ t, termRedraw s = some t := by
  obtain ⟨u, hu⟩ := redrawRows_isSome (s := bufferCheck s) (n := (bufferCheck s).height)
    fun hs a b _ _ => h hs a b
  unfold termRedraw
  rw [hu]
  exact ⟨_, rfl⟩

theorem redrawRow_none (hskip : SkipMode s) (hprev : prevAt s 0 j = none) (hn : 0 < n) :
    redrawRow s j n = none := by
  induction n with
  | zero => exact absurd hn (lt_irrefl 0)
  | succ n ih =>
    rw [redrawRow]
    cases n with
    | zero =>
      change redrawCell s 0 j = none
      rw [redrawCell, if_pos hskip, hprev]
      rfl
    | succ n =>
      rw [ih (Nat.succ_pos n)]
      rfl

theorem redrawRows_none (hskip : SkipMode s) (hprev : prevAt s 0 0 = none) (hw : 0 < s.width)
    (hn : 0 < n) : redrawRows s n = none := by
  induction n with
  | zero => exact absurd hn (lt_irrefl 0)
  | succ n ih =>
    rw [redrawRows]
    cases n with
    | zero => exact redrawRow_none hskip hprev hw
    | succ n =>
      rw [ih (Nat.succ_pos n)]
      rfl

/-- In skip mode the screen has been redrawn, and is right. -/
structure Inv (s : Term) : Prop where
  cursor : s.x < 1920 ∧ s.y < 1079
  width : 0 < s.width ∧ s.width < 1920
  height : 0 < s.height ∧ s.height < 1080
  last : s.lastWidth = s.width
  scrolling : s.scrolling = 0
  line : s.bufferLine ≤ UINT16_MAX
  synced : s.width = s.height → Synced s ∧ s.bufferLine < UINT16_MAX

theorem boot_inv : Inv boot :=
  ⟨by decide, by decide, by decide, rfl, rfl, by decide, fun h => absurd h (by decide)⟩

theorem Inv.skipMode_iff (h : Inv s) : SkipMode s ↔ s.width = s.height := by
  unfold SkipMode
  rw [h.last]
  exact ⟨fun h => h.1, fun h => ⟨h, rfl⟩⟩

theorem bufferCheck_line (h : s.bufferLine ≤ UINT16_MAX) :
    (bufferCheck s).bufferLine < UINT16_MAX := by
  unfold bufferCheck
  split_ifs with hmax
  · change 0 < UINT16_MAX
    decide
  · exact Nat.lt_of_le_of_ne h hmax

theorem bufferCheck_fields (s : Term) : (bufferCheck s).x = s.x ∧ (bufferCheck s).y = s.y ∧
    (bufferCheck s).width = s.width ∧ (bufferCheck s).height = s.height ∧
    (bufferCheck s).lastWidth = s.lastWidth ∧ (bufferCheck s).scrolling = s.scrolling ∧
    (bufferCheck s).screen = s.screen := by
  unfold bufferCheck
  split_ifs
  · exact ⟨rfl, rfl, rfl, rfl, rfl, rfl, rfl⟩
  · exact ⟨rfl, rfl, rfl, rfl, rfl, rfl, rfl⟩

theorem Inv.bufferCheck (h : Inv s) : Inv (bufferCheck s) := by
  obtain ⟨hx, hy, hw, hh, hl, hs, -⟩ := bufferCheck_fields s
  refine ⟨?_, ?_, ?_, ?_, ?_, Nat.le_of_lt (bufferCheck_line h.line), fun heq => ?_⟩
  · rw [hx, hy]
    exact h.cursor
  · rw [hw]
    exact h.width
  · rw [hh]
    exact h.height
  · rw [hl, hw]
    exact h.last
  · rw [hs]
    exact h.scrolling
  · rw [hw, hh] at heq
    rw [bufferCheck_of_ne (Nat.ne_of_lt (h.synced heq).2)]
    exact h.synced heq

theorem Inv.put (h : Inv s) (c : UInt8) (hx : x < 1920) (hy : y < 1079) : Inv (s.put c x y) :=
  ⟨h.cursor, h.width, h.height, h.last, h.scrolling, h.line, fun heq =>
    ⟨(h.synced heq).1.put h.width.2 h.height.2 hx (by omega), (h.synced heq).2⟩⟩

theorem Inv.termOutAt (h : Inv s) (c : UInt8) (hx : x < 1920) (hy : y < 1079) :
    Inv (termOutAt s c x y) := by
  unfold Terminal.termOutAt
  split_ifs
  · exact h.bufferCheck.put c hx hy
  · exact h.bufferCheck

theorem Inv.moved (h : Inv s) {x y : Nat} (hx : x < 1920) (hy : y < 1079) :
    Inv { s with x := x, y := y } :=
  ⟨⟨hx, hy⟩, h.width, h.height, h.last, h.scrolling, h.line, h.synced⟩

theorem advance_eq (s : Term) (c : UInt8) :
    advance s c = { s with x := (advance s c).x, y := (advance s c).y } := by
  unfold advance
  dsimp only
  split_ifs <;> rfl

theorem advance_x_lt (h : 0 < s.width) : (advance s c).x < s.width := by
  unfold advance
  dsimp only
  split_ifs with h1 h2 h3 h4 h5 h6 h7 h8 h9 <;> first | exact h | (dsimp only at *; omega)

theorem Inv.advanced (h : Inv s) {y : Nat} (hy : y < 1079) : Inv { advance s c with y := y } := by
  have hx : (advance s c).x < s.width := advance_x_lt h.width.1
  rw [advance_eq]
  exact h.moved (Nat.lt_trans hx h.width.2) hy

theorem Inv.beforeScroll (h : Inv s) : Inv (beforeScroll s c) := by
  have hout := h.termOutAt c h.cursor.1 h.cursor.2
  have hheight : (advance (Terminal.termOutAt s c s.x s.y) c).height =
      (Terminal.termOutAt s c s.x s.y).height := by rw [advance_eq]
  have hh := hout.height
  exact hout.advanced (by omega)

theorem Redrawn.inv (h : Redrawn s t) (hx : s.x < 1920 ∧ s.y < 1079)
    (hw : 0 < s.width ∧ s.width < 1920) (hh : 0 < s.height ∧ s.height < 1080)
    (hline : s.bufferLine < UINT16_MAX) (hsync : Synced t) : Inv t := by
  refine ⟨?_, ?_, ?_, ?_, h.scrolling, ?_, fun _ => ⟨hsync, ?_⟩⟩
  · rw [h.cursor.1, h.cursor.2]
    exact hx
  · rw [h.size.1]
    exact hw
  · rw [h.size.2]
    exact hh
  · rw [h.last, h.size.1]
  · rw [h.line]
    exact Nat.le_of_lt hline
  · rw [h.line]
    exact hline

theorem prevAt_eq (h : s.scrolling ≤ s.bufferLine + j) :
    prevAt s i j = some (s.buffer (bufIdx (s.bufferLine + j - s.scrolling) i 0)) := by
  have hrow : Int.tmod ((s.bufferLine : Int) + (j - (s.scrolling : Nat))) TERM_MAX_HEIGHT =
      ((s.bufferLine + j - s.scrolling) % TERM_MAX_HEIGHT : Nat) := by
    rw [Int.tmod_eq_emod_of_nonneg (by omega)]
    unfold TERM_MAX_HEIGHT
    omega
  unfold prevAt bufIdx
  dsimp only
  rw [hrow, if_neg (by omega), Int.toNat_natCast, add_zero]

theorem prevAt_of_not_scrolling (h : s.scrolling = 0) (i j : Nat) :
    prevAt s i j = some (s.cell i j) := by
  rw [prevAt_eq (by omega), h]
  rfl

theorem Inv.resize (h : Inv s) (w : Size TERM_MAX_WIDTH) (k : Size TERM_MAX_HEIGHT) :
    ((∃ t, termResize s w k = some t ∧ Synced t) ↔ Shown s (.resize w k)) ∧
      ∀ t, termResize s w k = some t → Synced t → Inv t := by
  obtain ⟨w, hw0, hw⟩ := w
  obtain ⟨k, hk0, hk⟩ := k
  unfold TERM_MAX_WIDTH at hw
  unfold TERM_MAX_HEIGHT at hk
  have hsize : termResize s w k = termRedraw { s with width := w, height := k } := by
    unfold termResize TERM_MAX_WIDTH TERM_MAX_HEIGHT
    rw [Nat.mod_eq_of_lt hw, Nat.mod_eq_of_lt hk]
  generalize hu : ({ s with width := w, height := k } : Term) = u at hsize
  obtain ⟨hx, hy, hwidth, hheight, hlast, hscrolling, hscreen⟩ := bufferCheck_fields u
  have hline : (Terminal.bufferCheck u).bufferLine < UINT16_MAX := bufferCheck_line (hu ▸ h.line)
  have hzero : (Terminal.bufferCheck u).scrolling = 0 := hscrolling.trans (hu ▸ h.scrolling)
  have hcell : ∀ i j, (Terminal.bufferCheck u).cell i j = (Terminal.bufferCheck s).cell i j := by
    intro i j
    rw [← hu]
    unfold Terminal.bufferCheck
    dsimp only
    split_ifs <;> rfl
  have hmode : SkipMode (Terminal.bufferCheck u) ↔ s.lastWidth = k ∧ s.lastWidth = w := by
    unfold SkipMode
    rw [hlast, hwidth, hheight, ← hu]
  have hskipped : ∀ i j, Skipped (Terminal.bufferCheck u) i j ↔ s.lastWidth = k ∧ s.lastWidth = w := by
    intro i j
    unfold Skipped
    rw [prevAt_of_not_scrolling hzero, hmode]
    exact ⟨fun h => h.1, fun h => ⟨h, rfl⟩⟩
  obtain ⟨t, ht⟩ := termRedraw_isSome (s := u) fun _ a b => by
    rw [prevAt_of_not_scrolling hzero]
    exact some_ne_none _
  have hre := termRedraw_spec ht
  rw [hsize]
  constructor
  · have hiff : Synced t ↔ Shown s (.resize ⟨w, hw0, hw⟩ ⟨k, hk0, hk⟩) := by
      rw [hre.synced_iff, hwidth, hheight, hscreen, ← hu]
      unfold Shown
      dsimp only
      rw [hu]
      simp only [hskipped, hcell]
      constructor
      · exact fun hall hmode i j hi hj => hall i j hi hj hmode
      · exact fun hall i j hi hj hmode => hall hmode i j hi hj
    constructor
    · rintro ⟨t', ht', hsync⟩
      cases ht.symm.trans ht'
      exact hiff.mp hsync
    · exact fun hshown => ⟨t, ht, hiff.mpr hshown⟩
  · intro t' ht' hsync
    cases ht.symm.trans ht'
    refine hre.inv ?_ ?_ ?_ hline hsync
    · rw [hx, hy, ← hu]
      exact h.cursor
    · rw [hwidth, ← hu]
      exact ⟨hw0, hw⟩
    · rw [hheight, ← hu]
      exact ⟨hk0, hk⟩

theorem termClearLine_eq (s : Term) (line : Nat) : termClearLine s line = { bufferCheck s with
    buffer := (termClearLine s line).buffer
    screen := (termClearLine s line).screen } := by
  unfold termClearLine
  split_ifs
  · rfl
  · exact (clearCols_spec _ _ _).1

def scrolled (s : Term) : Term :=
  { termClearLine { s with bufferLine := (s.bufferLine + 1) % 2^16 } s.y with scrolling := 1 }

theorem termScroll_one (s : Term) : termScroll s 1 = termRedraw (scrolled s) := if_neg (by decide)

theorem scrolled_fields (s : Term) : (scrolled s).x = s.x ∧ (scrolled s).y = s.y ∧
    (scrolled s).width = s.width ∧ (scrolled s).height = s.height ∧
    (scrolled s).lastWidth = s.lastWidth ∧
    (scrolled s).bufferLine =
      (bufferCheck { s with bufferLine := (s.bufferLine + 1) % 2^16 }).bufferLine := by
  obtain ⟨hx, hy, hw, hh, hl, -, -⟩ :=
    bufferCheck_fields { s with bufferLine := (s.bufferLine + 1) % 2^16 }
  unfold scrolled
  rw [termClearLine_eq]
  exact ⟨hx, hy, hw, hh, hl, rfl⟩

theorem scrolled_line (s : Term) : (scrolled s).bufferLine < UINT16_MAX := by
  rw [(scrolled_fields s).2.2.2.2.2]
  refine bufferCheck_line ?_
  change (s.bufferLine + 1) % 2^16 ≤ 65535
  omega

theorem scrolled_skipMode (s : Term) : SkipMode (scrolled s) ↔ SkipMode s := by
  obtain ⟨-, -, hwidth, hheight, hlast, -⟩ := scrolled_fields s
  unfold SkipMode
  rw [hlast, hheight, hwidth]

/-- With the counter at its reserved value the buffer starts anew, and the row above the
first one is in front of it. -/
theorem termScroll_none (hskip : SkipMode s) (hw : 0 < s.width) (hh : 0 < s.height)
    (hline : s.bufferLine + 1 = UINT16_MAX) : termScroll s 1 = none := by
  obtain ⟨-, -, hwidth, hheight, -, hzero⟩ := scrolled_fields s
  have hcheck : bufferCheck (scrolled s) = scrolled s :=
    bufferCheck_of_ne (Nat.ne_of_lt (scrolled_line s))
  have hmax : (s.bufferLine + 1) % 2^16 = UINT16_MAX := by
    rw [hline]
    rfl
  have hz : (scrolled s).bufferLine = 0 := by
    rw [hzero]
    unfold bufferCheck
    rw [if_pos hmax]
  have hprev : prevAt (scrolled s) 0 0 = none := by
    unfold prevAt
    rw [hz]
    rfl
  rw [termScroll_one, termRedraw, hcheck, redrawRows_none ((scrolled_skipMode s).mpr hskip) hprev (by omega) (by omega)]
  rfl

theorem termScroll_isSome_of_not_skip (h : ¬ SkipMode s) : ∃ t, termScroll s 1 = some t := by
  rw [termScroll_one]
  refine termRedraw_isSome fun hskip => ?_
  rw [bufferCheck_of_ne (Nat.ne_of_lt (scrolled_line s)), scrolled_skipMode] at hskip
  exact absurd hskip h

section
variable (hline : s.bufferLine + 1 < UINT16_MAX)
include hline

theorem scrolled_eq : scrolled s = { (if s.y > s.height then { s with bufferLine := s.bufferLine + 1 }
    else clearCols { s with bufferLine := s.bufferLine + 1 } s.y s.width) with scrolling := 1 } := by
  have hmod : (s.bufferLine + 1) % 2^16 = s.bufferLine + 1 := by
    unfold UINT16_MAX at hline
    omega
  have hcheck : bufferCheck { s with bufferLine := s.bufferLine + 1 } =
      { s with bufferLine := s.bufferLine + 1 } := bufferCheck_of_ne (Nat.ne_of_lt hline)
  unfold scrolled termClearLine
  rw [hmod, hcheck]

theorem scrolled_bufferLine : (scrolled s).bufferLine = s.bufferLine + 1 := by
  rw [scrolled_eq hline]
  dsimp only
  split_ifs
  · rfl
  · rw [(clearCols_spec _ _ _).1]

theorem scrolled_screen (i j : Nat) : (scrolled s).screen i j =
    if (i < s.width ∧ j = s.y) ∧ s.y ≤ s.height then some 0 else s.screen i j := by
  rw [scrolled_eq hline]
  dsimp only
  split_ifs with hy hcell hcell
  · omega
  · rfl
  · rw [(clearCols_spec _ _ _).2.1, if_pos hcell.1]
  · rw [(clearCols_spec _ _ _).2.1, if_neg fun h => hcell ⟨h, by omega⟩]

section Scrolled

variable (hw : s.width < 1920) (hy : s.y < 1079) (hi : i < 1920)
include hw hy hi

theorem scrolled_buffer (hj : j < 1080) :
    (scrolled s).buffer (bufIdx s.bufferLine i j) =
      if (i < s.width ∧ j = s.y + 1) ∧ s.y ≤ s.height then 0 else s.cell i j := by
  have hiff : (∃ a, a < s.width ∧ bufIdx s.bufferLine i j = bufIdx (s.bufferLine + 1) a s.y) ↔
      i < s.width ∧ j = s.y + 1 := by
    constructor
    · rintro ⟨a, ha, heq⟩
      rw [bufIdx_succ, bufIdx_inj hi (by omega) hj (by omega)] at heq
      omega
    · rintro ⟨hi, rfl⟩
      exact ⟨i, hi, (bufIdx_succ _ _ _).symm⟩
  rw [scrolled_eq hline]
  dsimp only
  split_ifs with hgt hcell hcell
  · omega
  · rfl
  · rw [(clearCols_spec _ _ _).2.2, if_pos (hiff.mpr hcell.1)]
  · rw [(clearCols_spec _ _ _).2.2, if_neg fun h => hcell ⟨hiff.mp h, by omega⟩]
    rfl

theorem scrolled_cell (hj : j < 1079) :
    (scrolled s).cell i j =
      if (i < s.width ∧ j = s.y) ∧ s.y ≤ s.height then 0 else s.cell i (j + 1) := by
  unfold Term.cell
  rw [scrolled_bufferLine hline, bufIdx_succ, scrolled_buffer hline hw hy hi (by omega)]
  simp only [Nat.add_right_cancel_iff]
  rfl

theorem scrolled_prevAt (hj : j < 1080) :
    prevAt (scrolled s) i j =
      some (if (i < s.width ∧ j = s.y + 1) ∧ s.y ≤ s.height then 0 else s.cell i j) := by
  have hbl : (scrolled s).bufferLine = s.bufferLine + 1 := scrolled_bufferLine hline
  have hone : (scrolled s).scrolling = 1 := rfl
  have hidx : bufIdx (s.bufferLine + 1 + j - 1) i 0 = bufIdx s.bufferLine i j := by
    unfold bufIdx
    congr 3
    omega
  rw [prevAt_eq (by omega), hbl, hone, hidx, scrolled_buffer hline hw hy hi hj]

end Scrolled

theorem termScroll_isSome (hw : s.width < 1920) (hh : s.height < 1080) (hy : s.y < 1079) :
    ∃ t, termScroll s 1 = some t := by
  obtain ⟨-, -, hwidth, hheight, -, -⟩ := scrolled_fields s
  obtain ⟨u, hu⟩ := redrawRows_isSome (s := scrolled s) (n := (scrolled s).height) fun _ a b ha hb => by
    rw [scrolled_prevAt hline hw hy (by omega) (by omega)]
    exact some_ne_none _
  rw [termScroll_one, termRedraw, bufferCheck_of_ne (Nat.ne_of_lt (scrolled_line s)), hu]
  exact ⟨_, rfl⟩

/-- A scroll in skip mode leaves the screen right exactly when the row below the cursor
is not skipped with a character in it. -/
theorem scrolled_shown_iff (hsync : Synced s) (hskip : SkipMode (scrolled s)) (hw : s.width < 1920)
    (hh : s.height < 1080) (hy : s.y < 1079) :
    (∀ i j, i < s.width → j < s.height → Skipped (scrolled s) i j →
        (scrolled s).screen i j = some ((scrolled s).cell i j)) ↔
      (s.y + 1 < s.height → ∀ i, i < s.width → s.cell i (s.y + 2) = 0 → s.cell i (s.y + 1) = 0) := by
  have hskipped : ∀ i j, i < s.width → j < s.height → (Skipped (scrolled s) i j ↔
      (if (i < s.width ∧ j = s.y + 1) ∧ s.y ≤ s.height then 0 else s.cell i j) =
        (scrolled s).cell i j) := by
    intro i j hi hj
    unfold Skipped
    rw [scrolled_prevAt hline hw hy (by omega) (by omega), some.injEq]
    exact ⟨fun h => h.2, fun h => ⟨hskip, h⟩⟩
  constructor
  · intro hall hlt i hi hzero
    have hcell : (scrolled s).cell i (s.y + 1) = s.cell i (s.y + 2) := by
      rw [scrolled_cell hline hw hy (by omega) (by omega), if_neg (by omega)]
    have hshow := hall i (s.y + 1) hi hlt ((hskipped i (s.y + 1) hi hlt).mpr (by
      rw [if_pos (by omega), hcell, hzero]))
    rw [scrolled_screen hline, if_neg (by omega), hsync i (s.y + 1) hi hlt, hcell, hzero] at hshow
    exact some.inj hshow
  · intro hbelow i j hi hj hskip'
    have hprev := (hskipped i j hi hj).mp hskip'
    rw [scrolled_screen hline]
    -- the row of the cursor has just been drawn; the row below it was compared with that one
    by_cases hcur : j = s.y
    · rw [if_pos (by omega), scrolled_cell hline hw hy (by omega) (by omega), if_pos (by omega)]
    · rw [if_neg (by omega), hsync i j hi hj]
      have hcell : (scrolled s).cell i j = s.cell i (j + 1) := by
        rw [scrolled_cell hline hw hy (by omega) (by omega), if_neg (by omega)]
      rw [hcell] at hprev ⊢
      by_cases hnext : j = s.y + 1 ∧ s.y ≤ s.height
      · obtain ⟨rfl, hle⟩ := hnext
        rw [if_pos (by omega)] at hprev
        rw [hbelow hj i hi hprev.symm, hprev]
      · rw [if_neg (by omega)] at hprev
        rw [hprev]

end

theorem Inv.scroll (h : Inv s) :
    ((∃ t, termScroll s 1 = some t ∧ Synced t) ↔ ScrollShown s) ∧
      ∀ t, termScroll s 1 = some t → Synced t → Inv t := by
  obtain ⟨hx, hy, hwidth, hheight, -, -⟩ := scrolled_fields s
  have hcheck : Terminal.bufferCheck (scrolled s) = scrolled s :=
    bufferCheck_of_ne (Nat.ne_of_lt (scrolled_line s))
  have hmode := scrolled_skipMode s
  constructor
  · by_cases hskip : SkipMode s
    · obtain ⟨hsync, hlt⟩ := h.synced (h.skipMode_iff.mp hskip)
      by_cases hmax : s.bufferLine + 1 = UINT16_MAX
      · rw [termScroll_none hskip h.width.1 h.height.1 hmax]
        constructor
        · rintro ⟨t, ht, -⟩
          cases ht
        · exact fun hshown => absurd hmax (hshown hskip).1
      · have hline : s.bufferLine + 1 < UINT16_MAX := by omega
        have hw := h.width.2
        have hh := h.height.2
        have hcur := h.cursor.2
        have hiff := scrolled_shown_iff hline hsync (hmode.mpr hskip) hw hh hcur
        obtain ⟨t, ht⟩ := termScroll_isSome hline hw hh hcur
        have hre := termRedraw_spec ((termScroll_one s).symm.trans ht)
        rw [hcheck] at hre
        have hsynced := hre.synced_iff
        rw [hwidth, hheight, hiff] at hsynced
        constructor
        · rintro ⟨t', ht', hsync'⟩ _
          cases ht.symm.trans ht'
          exact ⟨hmax, hsynced.mp hsync'⟩
        · exact fun hshown => ⟨t, ht, hsynced.mpr (hshown hskip).2⟩
    · obtain ⟨t, ht⟩ := termScroll_isSome_of_not_skip hskip
      have hre := termRedraw_spec ((termScroll_one s).symm.trans ht)
      rw [hcheck] at hre
      constructor
      · exact fun _ hs => absurd hs hskip
      · intro _
        refine ⟨t, ht, hre.synced_iff.mpr fun i j _ _ hsk => ?_⟩
        exact absurd (hmode.mp hsk.1) hskip
  · intro t ht hsync
    have hre := termRedraw_spec ((termScroll_one s).symm.trans ht)
    rw [hcheck] at hre
    refine hre.inv ?_ ?_ ?_ (scrolled_line s) hsync
    · rw [hx, hy]
      exact h.cursor
    · rw [hwidth]
      exact h.width
    · rw [hheight]
      exact h.height

theorem lastRow_of_pos {height : Nat} (h0 : 0 < height) (h : height < 1080) : lastRow height = height - 1 := by
  unfold lastRow UINT16_MAX
  omega

theorem Inv.termOut_of_scrolls (hinv : Inv s) (h : Scrolls s c) :
    termOut s c = termScroll (Terminal.beforeScroll s c) 1 := by
  have hout := hinv.termOutAt c hinv.cursor.1 hinv.cursor.2
  have hheight : (advance (Terminal.termOutAt s c s.x s.y) c).height =
      (Terminal.termOutAt s c s.x s.y).height := by rw [advance_eq]
  have hrow : lastRow (advance (Terminal.termOutAt s c s.x s.y) c).height =
      (advance (Terminal.termOutAt s c s.x s.y) c).height - 1 := by
    rw [hheight]
    exact lastRow_of_pos hout.height.1 hout.height.2
  unfold termOut termMoveCur
  rw [if_neg h.1, if_pos h.2, hrow]
  rfl

theorem Inv.out (h : Inv s) (hnot : ¬ Scrolls s c) (ht : termOut s c = some t) : Inv t := by
  have hout := h.termOutAt c h.cursor.1 h.cursor.2
  unfold termOut termMoveCur at ht
  by_cases hc : c = 0
  · rw [if_pos hc] at ht
    cases ht
    exact hout
  · rw [if_neg hc] at ht
    by_cases hy : (advance (Terminal.termOutAt s c s.x s.y) c).y ≥
        (advance (Terminal.termOutAt s c s.x s.y) c).height
    · exact absurd ⟨hc, hy⟩ hnot
    · rw [if_neg hy] at ht
      cases ht
      have hheight : (advance (Terminal.termOutAt s c s.x s.y) c).height =
          (Terminal.termOutAt s c s.x s.y).height := by rw [advance_eq]
      have hh := hout.height
      exact hout.advanced (y := (advance (Terminal.termOutAt s c s.x s.y) c).y) (by omega)

theorem Inv.redraws (h : Inv s) {op : Op} (hre : Redraws s op) :
    ((∃ t, step s op = some t ∧ Synced t) ↔ Shown s op) ∧
      ∀ t, step s op = some t → Synced t → Inv t := by
  cases op with
  | out c =>
    have hscroll := (h.beforeScroll (c := c)).scroll
    have heq : step s (.out c) = termScroll (Terminal.beforeScroll s c) 1 := h.termOut_of_scrolls hre
    rw [heq]
    refine ⟨hscroll.1.trans ⟨fun hs _ => hs, fun hs => hs hre⟩, hscroll.2⟩
  | scroll => exact h.scroll
  | resize w k => exact h.resize w k

theorem Inv.step (s : Term) (op : Op) (t : Term) (h : Inv s) (hok : Shown s op)
    (ht : step s op = some t) : Inv t := by
  by_cases hre : Redraws s op
  · obtain ⟨hiff, hinv⟩ := h.redraws hre
    obtain ⟨t', ht', hsync⟩ := hiff.mpr hok
    cases ht.symm.trans ht'
    exact hinv t ht hsync
  · cases op with
    | out c => exact h.out hre ht
    | scroll => exact absurd trivial hre
    | resize w k => exact absurd trivial hre

/-- In every state reached by calls that all meet the condition, a call that redraws
returns with a right screen exactly when it meets the condition itself. -/
theorem redraw_synced_iff (s : Term) (hrun : Run.Reach step Shown boot s) (op : Op)
    (hre : Redraws s op) : (∃ t, step s op = some t ∧ Synced t) ↔ Shown s op :=
  ((hrun.invariant boot_inv Inv.step).redraws hre).1

def oneRow : Op := .resize ⟨2, by decide, by decide⟩ ⟨1, by decide, by decide⟩

def twoRows : Op := .resize ⟨2, by decide, by decide⟩ ⟨2, by decide, by decide⟩

theorem first_resize_synced : ∃ t, step boot twoRows = some t ∧ Synced t :=
  (redraw_synced_iff boot .start twoRows trivial).mpr fun h => absurd h.1 (by decide)

/-- A character in the second row stays on the screen when the row is taken away, the
buffer scrolls, and the row is given back. -/
theorem stale_character : ∃ s t, Run.Reach step Run.anyOp boot s ∧ Redraws s twoRows ∧
    step s twoRows = some t ∧ t.screen 0 1 = some 65 ∧ t.cell 0 1 = 0 ∧ ¬ Synced t := by
  have hexec : ((Run.exec step boot [twoRows, .out 10, .out 65, oneRow, .out 10]).bind fun s =>
      (step s twoRows).map fun t => (t.screen 0 1, t.cell 0 1, t.width, t.height)) =
        some (some 65, 0, 2, 2) := by decide +kernel
  obtain ⟨s, hs, hstep⟩ := bind_eq_some_iff.mp hexec
  obtain ⟨t, ht, hfields⟩ := map_eq_some_iff.mp hstep
  simp only [Prod.mk.injEq] at hfields
  obtain ⟨hscreen, hcell, hwidth, hheight⟩ := hfields
  refine ⟨s, t, Run.Reach.start.exec hs, trivial, ht, hscreen, hcell, fun hsync => ?_⟩
  have hshow := hsync 0 1 (by omega) (by omega)
  rw [hscreen, hcell] at hshow
  cases hshow

end Comus.Terminal
