import Mathlib.Logic.Function.Basic
import Mathlib.Tactic

/-!
# The terminal (kernel/term.c)

The static variables of the terminal, together with the screen: for every cell the
character of the last `gpu_draw_char` call for it. The variables of type `uint16_t`
are numbers below `2^16`. `none` is a read in front of the buffer.
-/

namespace Comus.Terminal

open Option

def TERM_MAX_WIDTH : Nat := 1920

def TERM_MAX_HEIGHT : Nat := 1080

def UINT16_MAX : Nat := 65535

structure Term where
  buffer : Nat → UInt8
  bufferLine : Nat
  lastWidth : Nat
  width : Nat
  lastHeight : Nat
  height : Nat
  scrolling : Nat
  x : Nat
  y : Nat
  screen : Nat → Nat → Option UInt8

def boot : Term where
  buffer _ := 0
  bufferLine := UINT16_MAX
  lastWidth := 80
  width := 80
  lastHeight := 25
  height := 25
  scrolling := 0
  x := 0
  y := 0
  screen _ _ := none

/-- `BUFIDX(x, y)` for a row that is not negative. -/
def bufIdx (line x y : Nat) : Nat := x + (line + y) % TERM_MAX_HEIGHT * TERM_MAX_WIDTH

def Term.cell (s : Term) (i j : Nat) : UInt8 := s.buffer (bufIdx s.bufferLine i j)

def Term.draw (s : Term) (c : UInt8) (x y : Nat) : Term :=
  { s with screen := fun i j => if i = x ∧ j = y then some c else s.screen i j }

def Term.put (s : Term) (c : UInt8) (x y : Nat) : Term :=
  Term.draw { s with buffer := Function.update s.buffer (bufIdx s.bufferLine x y) c } c x y

def bufferCheck (s : Term) : Term :=
  if s.bufferLine = UINT16_MAX then { s with bufferLine := 0, buffer := fun _ => 0 } else s

/-- Everything but the null character, `\n`, `\t`, `\v`, `\f` and `\r`. -/
def printable (c : UInt8) : Bool := !(c = 0 ∨ c = 10 ∨ c = 9 ∨ c = 11 ∨ c = 12 ∨ c = 13)

def termOutAt (s : Term) (c : UInt8) (x y : Nat) : Term :=
  if printable c then (bufferCheck s).put c x y else bufferCheck s

def clearCols (s : Term) (line : Nat) : Nat → Term
  | 0 => s
  | n + 1 => (clearCols s line n).put 0 n line

def termClearLine (s : Term) (line : Nat) : Term :=
  if line > (bufferCheck s).height then bufferCheck s
  else clearCols (bufferCheck s) line (bufferCheck s).width

/-- The character `scrolling` rows above a cell; a negative row is in front of the buffer. -/
def prevAt (s : Term) (i j : Nat) : Option UInt8 :=
  let row := Int.tmod ((s.bufferLine : Int) + (j - s.scrolling)) TERM_MAX_HEIGHT
  if row < 0 then none else some (s.buffer (i + row.toNat * TERM_MAX_WIDTH))

/-- The test for an unchanged size, which compares the width with the height. -/
def SkipMode (s : Term) : Prop := s.lastWidth = s.height ∧ s.lastWidth = s.width

instance (s : Term) : Decidable (SkipMode s) := by
  unfold SkipMode
  infer_instance

def redrawCell (s : Term) (i j : Nat) : Option Term :=
  if SkipMode s then
    (prevAt s i j).map fun prev => if s.cell i j = prev then s else s.draw (s.cell i j) i j
  else some (s.draw (s.cell i j) i j)

def redrawRow (s : Term) (j : Nat) : Nat → Option Term
  | 0 => some s
  | n + 1 => (redrawRow s j n).bind fun t => redrawCell t n j

def redrawRows (s : Term) : Nat → Option Term
  | 0 => some s
  | n + 1 => (redrawRows s n).bind fun t => redrawRow t n t.width

def termRedraw (s : Term) : Option Term :=
  (redrawRows (bufferCheck s) (bufferCheck s).height).map fun t =>
    { t with lastWidth := t.width, lastHeight := t.height, scrolling := 0 }

def termScroll (s : Term) (lines : Nat) : Option Term :=
  if lines = 0 then some s
  else termRedraw { termClearLine { s with bufferLine := (s.bufferLine + lines) % 2^16 } s.y with
    scrolling := lines }

def termResize (s : Term) (w h : Nat) : Option Term :=
  termRedraw { s with width := w % TERM_MAX_WIDTH, height := h % TERM_MAX_HEIGHT }

def advance (s : Term) (c : UInt8) : Term :=
  let s := if c = 10 then { s with x := 0, y := (s.y + 1) % 2^16 }
    else if c = 9 then { s with x := (s.x + 4) % 2^16 }
    else if c = 11 ∨ c = 12 then { s with y := (s.y + 1) % 2^16 }
    else if c = 13 then { s with x := 0 }
    else { s with x := (s.x + 1) % 2^16 }
  if s.x ≥ s.width then { s with x := 0, y := (s.y + 1) % 2^16 } else s

def lastRow (height : Nat) : Nat := (height + UINT16_MAX) % 2^16

def termMoveCur (s : Term) (c : UInt8) : Option Term :=
  if c = 0 then some s
  else if (advance s c).y ≥ (advance s c).height then
    termScroll { advance s c with y := lastRow (advance s c).height } 1
  else some (advance s c)

def termOut (s : Term) (c : UInt8) : Option Term := termMoveCur (termOutAt s c s.x s.y) c

def termOutStr (s : Term) : List UInt8 → Option Term
  | [] => some s
  | c :: str => if c = 0 then some s else (termOut s c).bind fun t => termOutStr t str

def clearRows (s : Term) : Nat → Term
  | 0 => s
  | n + 1 => termClearLine (clearRows s n) n

def termClear (s : Term) : Term := clearRows s s.height

variable {s t : Term} {i j n : Nat}

def SameBut (s t : Term) : Prop := t = { s with screen := t.screen }

theorem SameBut.refl (s : Term) : SameBut s s := rfl

theorem SameBut.cell (h : SameBut s t) (i j : Nat) : t.cell i j = s.cell i j := by
  rw [h]
  rfl

theorem SameBut.skipMode (h : SameBut s t) : SkipMode t ↔ SkipMode s := by
  rw [h]
  rfl

theorem SameBut.prevAt (h : SameBut s t) (i j : Nat) : prevAt t i j = prevAt s i j := by
  rw [h]
  rfl

theorem SameBut.draw (h : SameBut s t) (c : UInt8) (x y : Nat) : SameBut s (t.draw c x y) := by
  rw [h]
  rfl

def Skipped (s : Term) (i j : Nat) : Prop := SkipMode s ∧ prevAt s i j = some (s.cell i j)

instance (s : Term) (i j : Nat) : Decidable (Skipped s i j) := by
  unfold Skipped
  infer_instance

theorem SameBut.skipped (h : SameBut s t) : Skipped t i j ↔ Skipped s i j := by
  unfold Skipped
  rw [h.skipMode, h.prevAt, h.cell]

theorem redrawCell_spec (h : redrawCell s i j = some t) : SameBut s t ∧
    ∀ a b, t.screen a b =
      if (a = i ∧ b = j) ∧ ¬ Skipped s i j then some (s.cell i j) else s.screen a b := by
  unfold redrawCell at h
  by_cases hskip : SkipMode s
  · rw [if_pos hskip] at h
    obtain ⟨prev, hprev, rfl⟩ := map_eq_some_iff.mp h
    have hiff : Skipped s i j ↔ s.cell i j = prev := by
      unfold Skipped
      rw [hprev, some.injEq]
      exact ⟨fun h => h.2.symm, fun h => ⟨hskip, h.symm⟩⟩
    by_cases heq : s.cell i j = prev
    · rw [if_pos heq]
      refine ⟨SameBut.refl s, fun a b => ?_⟩
      rw [if_neg fun h => h.2 (hiff.mpr heq)]
    · rw [if_neg heq]
      refine ⟨(SameBut.refl s).draw _ _ _, fun a b => ?_⟩
      simp only [Term.draw, hiff, heq, not_false_eq_true, and_true]
  · rw [if_neg hskip] at h
    cases h
    have hnot : ¬ Skipped s i j := fun h => hskip h.1
    refine ⟨(SameBut.refl s).draw _ _ _, fun a b => ?_⟩
    simp only [Term.draw, hnot, not_false_eq_true, and_true]

theorem SameBut.trans {u : Term} (h : SameBut s t) (h' : SameBut t u) : SameBut s u := by
  unfold SameBut at *
  rw [h', h]

theorem redrawRow_spec (h : redrawRow s j n = some t) : SameBut s t ∧
    ∀ a b, t.screen a b =
      if (a < n ∧ b = j) ∧ ¬ Skipped s a j then some (s.cell a j) else s.screen a b := by
  induction n generalizing t with
  | zero =>
    cases h
    exact ⟨SameBut.refl s, fun a b => by simp⟩
  | succ n ih =>
    obtain ⟨u, hu, hcell⟩ := bind_eq_some_iff.mp h
    obtain ⟨hsame, hscreen⟩ := ih hu
    obtain ⟨hsame', hscreen'⟩ := redrawCell_spec hcell
    refine ⟨hsame.trans hsame', fun a b => ?_⟩
    simp only [hscreen', hsame.skipped, hsame.cell, hscreen]
    by_cases ha : a = n
    · subst ha
      by_cases hb : b = j
      · simp [hb]
      · simp [hb]
    · have hlt : a < n + 1 ↔ a < n := by omega
      simp only [ha, hlt, false_and, if_false]

theorem redrawRows_spec (h : redrawRows s n = some t) : SameBut s t ∧
    ∀ a b, t.screen a b =
      if (a < s.width ∧ b < n) ∧ ¬ Skipped s a b then some (s.cell a b) else s.screen a b := by
  induction n generalizing t with
  | zero =>
    cases h
    exact ⟨SameBut.refl s, fun a b => by simp⟩
  | succ n ih =>
    obtain ⟨u, hu, hrow⟩ := bind_eq_some_iff.mp h
    obtain ⟨hsame, hscreen⟩ := ih hu
    obtain ⟨hsame', hscreen'⟩ := redrawRow_spec hrow
    have hwidth : u.width = s.width := by rw [hsame]
    refine ⟨hsame.trans hsame', fun a b => ?_⟩
    simp only [hscreen', hsame.skipped, hsame.cell, hscreen, hwidth]
    by_cases hb : b = n
    · subst hb
      by_cases ha : a < s.width
      · simp [ha]
      · simp [ha]
    · have hlt : b < n + 1 ↔ b < n := by omega
      simp only [hb, hlt, and_false, false_and, if_false]

theorem redrawCell_isSome (h : SkipMode s → prevAt s i j ≠ none) : ∃ t, redrawCell s i j = some t := by
  unfold redrawCell
  by_cases hskip : SkipMode s
  · rw [if_pos hskip]
    obtain ⟨prev, hprev⟩ := ne_none_iff_exists'.mp (h hskip)
    rw [hprev]
    exact ⟨_, rfl⟩
  · rw [if_neg hskip]
    exact ⟨_, rfl⟩

theorem redrawRow_isSome (h : SkipMode s → ∀ a, a < n → prevAt s a j ≠ none) :
    ∃ t, redrawRow s j n = some t := by
  induction n with
  | zero => exact ⟨s, rfl⟩
  | succ n ih =>
    obtain ⟨u, hu⟩ := ih fun hs a ha => h hs a (by omega)
    obtain ⟨hsame, -⟩ := redrawRow_spec hu
    rw [redrawRow, hu]
    refine redrawCell_isSome fun hs => ?_
    rw [hsame.prevAt]
    exact h (hsame.skipMode.mp hs) n (by omega)

theorem redrawRows_isSome (h : SkipMode s → ∀ a b, a < s.width → b < n → prevAt s a b ≠ none) :
    ∃ t, redrawRows s n = some t := by
  induction n with
  | zero => exact ⟨s, rfl⟩
  | succ n ih =>
    obtain ⟨u, hu⟩ := ih fun hs a b ha hb => h hs a b ha (by omega)
    obtain ⟨hsame, -⟩ := redrawRows_spec hu
    have hwidth : u.width = s.width := by rw [hsame]
    rw [redrawRows, hu]
    refine redrawRow_isSome fun hs a ha => ?_
    rw [hsame.prevAt]
    exact h (hsame.skipMode.mp hs) a n (by omega) (by omega)

end Comus.Terminal
