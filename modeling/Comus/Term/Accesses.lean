import Mathlib.Data.Set.Basic
import Comus.Term.Scrolling

/-!
# The indices of the terminal buffer

For every call the set of the indices at which it reads or writes the buffer. `x` stays below
the maximal width and rows are reduced modulo the maximal height; only the comparison in skip
mode forms a row that may be negative.
-/

namespace Comus.Terminal

open Option

variable {s t : Term} {i j x y line lines : Nat} {c : UInt8}

inductive Call where
  | out (c : UInt8)
  | outStr (str : List UInt8)
  | clear
  | scroll (lines : UInt16)
  | resize (w h : UInt16)

def call (s : Term) : Call → Option Term
  | .out c => termOut s c
  | .outStr str => termOutStr s str
  | .clear => some (termClear s)
  | .scroll lines => termScroll s lines.toNat
  | .resize w h => termResize s w.toNat h.toNat

def inside : Set Int := {k | 0 ≤ k ∧ k < (TERM_MAX_WIDTH * TERM_MAX_HEIGHT : Nat)}

def prevIdx (s : Term) (i j : Nat) : Int :=
  i + Int.tmod (s.bufferLine + (j - s.scrolling)) TERM_MAX_HEIGHT * TERM_MAX_WIDTH

def checkAccesses (s : Term) : Set Int := {k | s.bufferLine = UINT16_MAX ∧ k ∈ inside}

def outAtAccesses (s : Term) (c : UInt8) (x y : Nat) : Set Int :=
  checkAccesses s ∪ {k | printable c ∧ k = bufIdx (bufferCheck s).bufferLine x y}

def clearLineAccesses (s : Term) (line : Nat) : Set Int :=
  checkAccesses s ∪ {k | line ≤ (bufferCheck s).height ∧
    ∃ x, x < (bufferCheck s).width ∧ k = bufIdx (bufferCheck s).bufferLine x line}

def redrawAccesses (s : Term) : Set Int :=
  checkAccesses s ∪ {k | ∃ i j, i < (bufferCheck s).width ∧ j < (bufferCheck s).height ∧
    (k = bufIdx (bufferCheck s).bufferLine i j ∨
      SkipMode (bufferCheck s) ∧ k = prevIdx (bufferCheck s) i j)}

def scrolledBy (s : Term) (lines : Nat) : Term :=
  { termClearLine { s with bufferLine := (s.bufferLine + lines) % 2^16 } s.y with scrolling := lines }

def scrollAccesses (s : Term) (lines : Nat) : Set Int :=
  {k | lines ≠ 0 ∧ (k ∈ clearLineAccesses { s with bufferLine := (s.bufferLine + lines) % 2^16 } s.y ∨
    k ∈ redrawAccesses (scrolledBy s lines))}

def moveCurAccesses (s : Term) (c : UInt8) : Set Int :=
  {k | c ≠ 0 ∧ (advance s c).y ≥ (advance s c).height ∧
    k ∈ scrollAccesses { advance s c with y := lastRow (advance s c).height } 1}

def outAccesses (s : Term) (c : UInt8) : Set Int :=
  outAtAccesses s c s.x s.y ∪ moveCurAccesses (termOutAt s c s.x s.y) c

def outStrAccesses (s : Term) : List UInt8 → Set Int
  | [] => ∅
  | c :: str => {k | c ≠ 0 ∧ (k ∈ outAccesses s c ∨ ∃ t, termOut s c = some t ∧ k ∈ outStrAccesses t str)}

def clearAccesses (s : Term) : Set Int := {k | ∃ j, j < s.height ∧ k ∈ clearLineAccesses (clearRows s j) j}

def accesses (s : Term) : Call → Set Int
  | .out c => outAccesses s c
  | .outStr str => outStrAccesses s str
  | .clear => clearAccesses s
  | .scroll lines => scrollAccesses s lines.toNat
  | .resize w h => redrawAccesses
      { s with width := w.toNat % TERM_MAX_WIDTH, height := h.toNat % TERM_MAX_HEIGHT }

def StaysInside (s : Term) : List Call → Prop
  | [] => True
  | op :: ops => accesses s op ⊆ inside ∧ ∀ t, call s op = some t → StaysInside t ops

/-- In skip mode the counter must stay below its reserved value. On a screen of one cell it may
also pass it if the row in front of the buffer is a multiple of the maximal height away. -/
def ScrollInside (s : Term) (lines : Nat) : Prop :=
  lines ≠ 0 → SkipMode s → 0 < s.height → s.bufferLine + lines < UINT16_MAX ∨
    s.height = 1 ∧ (s.bufferLine + lines = UINT16_MAX ∧ TERM_MAX_HEIGHT ∣ lines ∨
      UINT16_MAX < s.bufferLine + lines ∧ TERM_MAX_HEIGHT ∣ 2^16 - s.bufferLine)

def OutInside (s : Term) (c : UInt8) : Prop := Scrolls s c → ScrollInside (termOutAt s c s.x s.y) 1

def OutStrInside (s : Term) : List UInt8 → Prop
  | [] => True
  | c :: str => c ≠ 0 → OutInside s c ∧ ∀ t, termOut s c = some t → OutStrInside t str

def CallInside (s : Term) : Call → Prop
  | .out c => OutInside s c
  | .outStr str => OutStrInside s str
  | .clear => True
  | .scroll lines => ScrollInside s lines.toNat
  | .resize _ _ => True

def RunInside (s : Term) : List Call → Prop
  | [] => True
  | op :: ops => CallInside s op ∧ ∀ t, call s op = some t → RunInside t ops

structure Sized (s : Term) : Prop where
  column : s.x < 1920
  wide : s.width < 1920
  high : s.height < 1080
  line : s.bufferLine ≤ UINT16_MAX

theorem Sized.bufferCheck (h : Sized s) : Sized (bufferCheck s) := by
  obtain ⟨hx, -, hw, hh, -, -, -⟩ := bufferCheck_fields s
  exact ⟨hx ▸ h.column, hw ▸ h.wide, hh ▸ h.high, Nat.le_of_lt (bufferCheck_line h.line)⟩

theorem Sized.termOutAt (h : Sized s) (c : UInt8) (x y : Nat) : Sized (termOutAt s c x y) := by
  obtain ⟨hx, -, hw, hh, -, hline⟩ := termOutAt_fields s c x y
  refine ⟨hx ▸ h.column, hw ▸ h.wide, hh ▸ h.high, ?_⟩
  rw [hline]
  exact h.bufferCheck.line

theorem termClearLine_fields (s : Term) (line : Nat) :
    (termClearLine s line).x = s.x ∧ (termClearLine s line).width = s.width ∧
    (termClearLine s line).height = s.height ∧ (termClearLine s line).lastWidth = s.lastWidth ∧
    (termClearLine s line).scrolling = s.scrolling ∧
    (termClearLine s line).bufferLine = (bufferCheck s).bufferLine := by
  obtain ⟨hx, -, hw, hh, hl, hs, -⟩ := bufferCheck_fields s
  rw [termClearLine_eq]
  exact ⟨hx, hw, hh, hl, hs, rfl⟩

theorem Sized.termClearLine (h : Sized s) (line : Nat) : Sized (termClearLine s line) := by
  obtain ⟨hx, hw, hh, -, -, hline⟩ := termClearLine_fields s line
  refine ⟨hx ▸ h.column, hw ▸ h.wide, hh ▸ h.high, ?_⟩
  rw [hline]
  exact h.bufferCheck.line

theorem Sized.clearRows (h : Sized s) (n : Nat) : Sized (clearRows s n) := by
  induction n with
  | zero => exact h
  | succ n ih => exact ih.termClearLine n

theorem clearRows_scrolling (s : Term) (n : Nat) : (clearRows s n).scrolling = s.scrolling := by
  induction n with
  | zero => rfl
  | succ n ih => exact (termClearLine_fields _ n).2.2.2.2.1.trans ih

theorem Sized.advance (h : Sized s) (c : UInt8) : Sized (advance s c) := by
  have hx : (Terminal.advance s c).x < 1920 := advance_x_lt_max h.wide
  rw [advance_eq] at hx ⊢
  exact ⟨hx, h.wide, h.high, h.line⟩

theorem Sized.scrolledBy (h : Sized s) (lines : Nat) : Sized (scrolledBy s lines) := by
  have hcounted : Sized { s with bufferLine := (s.bufferLine + lines) % 2^16 } :=
    ⟨h.column, h.wide, h.high, by change (s.bufferLine + lines) % 2^16 ≤ 65535; omega⟩
  have hcleared := hcounted.termClearLine s.y
  exact ⟨hcleared.column, hcleared.wide, hcleared.high, hcleared.line⟩

theorem Sized.redraw (h : Sized s) (ht : termRedraw s = some t) : Sized t ∧ t.scrolling = 0 := by
  have hre := termRedraw_spec ht
  have hcheck := h.bufferCheck
  refine ⟨⟨?_, ?_, ?_, ?_⟩, hre.scrolling⟩
  · rw [hre.cursor.1]
    exact hcheck.column
  · rw [hre.size.1]
    exact hcheck.wide
  · rw [hre.size.2]
    exact hcheck.high
  · rw [hre.line]
    exact hcheck.line

structure Settled (s : Term) : Prop extends Sized s where
  scrolling : s.scrolling = 0

theorem boot_settled : Settled boot := ⟨⟨by decide, by decide, by decide, by decide⟩, rfl⟩

theorem Settled.scroll (h : Settled s) (ht : termScroll s lines = some t) : Settled t := by
  unfold termScroll at ht
  split_ifs at ht
  · exact some.inj ht ▸ h
  · obtain ⟨hsized, hdone⟩ := (h.scrolledBy lines).redraw ht
    exact ⟨hsized, hdone⟩

theorem termOutAt_scrolling (s : Term) (c : UInt8) (x y : Nat) :
    (termOutAt s c x y).scrolling = s.scrolling := by
  obtain ⟨-, -, -, -, -, hs, -⟩ := bufferCheck_fields s
  unfold termOutAt
  split_ifs
  · exact hs
  · exact hs

theorem Settled.out (h : Settled s) (ht : termOut s c = some t) : Settled t := by
  have hout : Settled (Terminal.termOutAt s c s.x s.y) :=
    ⟨h.termOutAt c s.x s.y, (termOutAt_scrolling s c s.x s.y).trans h.scrolling⟩
  unfold termOut termMoveCur at ht
  generalize Terminal.termOutAt s c s.x s.y = u at *
  have hadv : Settled (Terminal.advance u c) := by
    refine ⟨hout.advance c, ?_⟩
    rw [advance_eq]
    exact hout.scrolling
  split_ifs at ht with hc hbelow
  · exact some.inj ht ▸ hout
  · generalize Terminal.advance u c = v at *
    have hmoved : Settled { v with y := lastRow v.height } :=
      ⟨⟨hadv.column, hadv.wide, hadv.high, hadv.line⟩, hadv.scrolling⟩
    exact hmoved.scroll ht
  · exact some.inj ht ▸ hadv

theorem Settled.outStr {str : List UInt8} (h : Settled s) (ht : termOutStr s str = some t) : Settled t := by
  induction str generalizing s with
  | nil => exact some.inj ht ▸ h
  | cons c str ih =>
    unfold termOutStr at ht
    split_ifs at ht
    · exact some.inj ht ▸ h
    · obtain ⟨u, hu, hrest⟩ := bind_eq_some_iff.mp ht
      exact ih (h.out hu) hrest

theorem Sized.resized (h : Sized s) (w k : Nat) :
    Sized { s with width := w % TERM_MAX_WIDTH, height := k % TERM_MAX_HEIGHT } :=
  ⟨h.column, Nat.mod_lt w (by decide), Nat.mod_lt k (by decide), h.line⟩

theorem Settled.call {op : Call} (h : Settled s) (ht : call s op = some t) : Settled t := by
  cases op with
  | out c => exact h.out ht
  | outStr str => exact h.outStr ht
  | clear =>
    cases ht
    exact ⟨h.clearRows s.height, (clearRows_scrolling s s.height).trans h.scrolling⟩
  | scroll lines => exact h.scroll ht
  | resize w k =>
    obtain ⟨hsized, hdone⟩ := (h.resized w.toNat k.toNat).redraw ht
    exact ⟨hsized, hdone⟩

theorem bufIdx_inside (h : x < 1920) (line y : Nat) : (bufIdx line x y : Int) ∈ inside := by
  unfold inside bufIdx TERM_MAX_WIDTH TERM_MAX_HEIGHT
  rw [Set.mem_ofPred_eq]
  omega

theorem prevIdx_inside_iff (h : i < 1920) :
    prevIdx s i j ∈ inside ↔ TERM_MAX_HEIGHT ∣ s.scrolling - (s.bufferLine + j) := by
  unfold inside prevIdx TERM_MAX_WIDTH TERM_MAX_HEIGHT
  rw [Set.mem_ofPred_eq]
  rcases lt_or_ge (s.bufferLine + j) s.scrolling with hlt | hge
  · have hneg : ((s.bufferLine : Int) + (j - s.scrolling)).tmod (1080 : Nat) =
        -(((s.scrolling - (s.bufferLine + j) : Nat) : Int) % 1080) := by
      rw [show (s.bufferLine : Int) + (j - s.scrolling) = -((s.scrolling - (s.bufferLine + j) : Nat) : Int) by omega,
        Int.neg_tmod, Int.tmod_eq_emod_of_nonneg (by omega)]
      rfl
    rw [hneg]
    omega
  · rw [Int.tmod_eq_emod_of_nonneg (by omega)]
    omega

theorem checkAccesses_inside (s : Term) : checkAccesses s ⊆ inside := fun _ hk => hk.2

theorem Sized.outAtAccesses_inside (hy : x < 1920) : outAtAccesses s c x y ⊆ inside := by
  rintro k (hk | ⟨-, rfl⟩)
  · exact checkAccesses_inside s hk
  · exact bufIdx_inside hy _ _

theorem Sized.clearLineAccesses_inside (h : Sized s) (line : Nat) : clearLineAccesses s line ⊆ inside := by
  rintro k (hk | ⟨-, x, hx, rfl⟩)
  · exact checkAccesses_inside s hk
  · exact bufIdx_inside (Nat.lt_trans hx h.bufferCheck.wide) _ _

theorem Sized.clearAccesses_inside (h : Sized s) : clearAccesses s ⊆ inside := by
  rintro k ⟨j, -, hk⟩
  exact (h.clearRows j).clearLineAccesses_inside j hk

theorem Sized.redrawAccesses_inside_iff (h : Sized s) : redrawAccesses s ⊆ inside ↔
    (SkipMode (Terminal.bufferCheck s) → ∀ i j, i < s.width → j < s.height →
      TERM_MAX_HEIGHT ∣ s.scrolling - ((Terminal.bufferCheck s).bufferLine + j)) := by
  obtain ⟨-, -, hw, hh, -, hs, -⟩ := bufferCheck_fields s
  have hwide := h.wide
  unfold redrawAccesses
  rw [hw, hh, ← hs]
  constructor
  · intro hsub hskip i j hi hj
    exact (prevIdx_inside_iff (by omega)).mp (hsub (.inr ⟨i, j, hi, hj, .inr ⟨hskip, rfl⟩⟩))
  · rintro hdvd k (hk | ⟨i, j, hi, hj, rfl | ⟨hskip, rfl⟩⟩)
    · exact checkAccesses_inside s hk
    · exact bufIdx_inside (by omega) _ _
    · exact (prevIdx_inside_iff (by omega)).mpr (hdvd hskip i j hi hj)

theorem scrolledBy_fields (s : Term) (lines : Nat) : (scrolledBy s lines).width = s.width ∧
    (scrolledBy s lines).height = s.height ∧ (scrolledBy s lines).lastWidth = s.lastWidth ∧
    (scrolledBy s lines).bufferLine =
      if (s.bufferLine + lines) % 2^16 = UINT16_MAX then 0 else (s.bufferLine + lines) % 2^16 := by
  obtain ⟨-, hw, hh, hl, -, hline⟩ :=
    termClearLine_fields { s with bufferLine := (s.bufferLine + lines) % 2^16 } s.y
  refine ⟨hw, hh, hl, hline.trans ?_⟩
  unfold Terminal.bufferCheck
  split_ifs
  · rfl
  · rfl

theorem scrolledBy_check (s : Term) (lines : Nat) : bufferCheck (scrolledBy s lines) = scrolledBy s lines := by
  refine bufferCheck_of_ne ?_
  rw [(scrolledBy_fields s lines).2.2.2]
  split_ifs with hmax
  · decide
  · exact hmax

theorem rows_inside_iff {line height : Nat} (hline : line ≤ UINT16_MAX) (hlines : lines < 2^16)
    (hpos : lines ≠ 0) (hheight : 0 < height) :
    (∀ j, j < height → TERM_MAX_HEIGHT ∣ lines -
        ((if (line + lines) % 2^16 = UINT16_MAX then 0 else (line + lines) % 2^16) + j)) ↔
      line + lines < UINT16_MAX ∨ height = 1 ∧ (line + lines = UINT16_MAX ∧ TERM_MAX_HEIGHT ∣ lines ∨
        UINT16_MAX < line + lines ∧ TERM_MAX_HEIGHT ∣ 2^16 - line) := by
  unfold UINT16_MAX TERM_MAX_HEIGHT at *
  rcases Nat.lt_trichotomy (line + lines) 65535 with hbelow | hat | habove
  · have hmod : (line + lines) % 2^16 = line + lines := by omega
    rw [hmod, if_neg (by omega)]
    refine ⟨fun _ => .inl hbelow, fun _ j _ => ?_⟩
    rw [show lines - (line + lines + j) = 0 by omega]
    exact Nat.dvd_zero _
  · have hmod : (line + lines) % 2^16 = 65535 := by omega
    rw [hmod, if_pos rfl]
    constructor
    · intro hall
      have hfirst := hall 0 hheight
      have hsecond := hall 1
      omega
    · rintro (hlt | ⟨rfl, ⟨-, hdvd⟩ | ⟨hgt, -⟩⟩) j hj
      · omega
      · omega
      · omega
  · have hmod : (line + lines) % 2^16 = line + lines - 2^16 := by omega
    rw [hmod, if_neg (by omega)]
    constructor
    · intro hall
      have hfirst := hall 0 hheight
      have hsecond := hall 1
      omega
    · rintro (hlt | ⟨rfl, ⟨heq, -⟩ | ⟨-, hdvd⟩⟩) j hj
      · omega
      · omega
      · omega

theorem Sized.scrollAccesses_subset_iff (h : Sized s) : scrollAccesses s lines ⊆ inside ↔
    (lines ≠ 0 → redrawAccesses (Terminal.scrolledBy s lines) ⊆ inside) := by
  have hcounted : Sized { s with bufferLine := (s.bufferLine + lines) % 2^16 } :=
    ⟨h.column, h.wide, h.high, by change (s.bufferLine + lines) % 2^16 ≤ 65535; omega⟩
  constructor
  · exact fun hsub hpos k hk => hsub ⟨hpos, .inr hk⟩
  · rintro hredraw k ⟨hpos, hk | hk⟩
    · exact hcounted.clearLineAccesses_inside s.y hk
    · exact hredraw hpos hk

theorem Sized.scrollAccesses_inside_iff (h : Sized s) (hlines : lines < 2^16) :
    scrollAccesses s lines ⊆ inside ↔ ScrollInside s lines := by
  obtain ⟨hw, hh, hl, hline⟩ := scrolledBy_fields s lines
  have hmode : SkipMode (Terminal.scrolledBy s lines) ↔ SkipMode s := by
    unfold SkipMode
    rw [hw, hh, hl]
  rw [h.scrollAccesses_subset_iff]
  unfold ScrollInside
  refine forall_congr' fun hpos => ?_
  rw [(h.scrolledBy lines).redrawAccesses_inside_iff, scrolledBy_check, hmode, hw, hh, hline]
  refine forall_congr' fun hskip => ?_
  have hsquare : s.width = s.height := hskip.2.symm.trans hskip.1
  rw [hsquare]
  constructor
  · intro hall hheight
    exact (rows_inside_iff h.line hlines hpos hheight).mp fun j hj => hall 0 j hheight hj
  · intro hcond i j hi hj
    exact (rows_inside_iff h.line hlines hpos (by omega)).mpr (hcond (by omega)) j hj

def atLastRow (s : Term) (c : UInt8) : Term :=
  { advance (termOutAt s c s.x s.y) c with
    y := lastRow (advance (termOutAt s c s.x s.y) c).height }

theorem Sized.atLastRow (h : Sized s) (c : UInt8) : Sized (atLastRow s c) := by
  have hadv := (h.termOutAt c s.x s.y).advance c
  unfold Terminal.atLastRow
  generalize Terminal.advance (Terminal.termOutAt s c s.x s.y) c = v at *
  exact ⟨hadv.column, hadv.wide, hadv.high, hadv.line⟩

theorem Sized.outAccesses_subset_iff (h : Sized s) : outAccesses s c ⊆ inside ↔
    (Scrolls s c → scrollAccesses (Terminal.atLastRow s c) 1 ⊆ inside) := by
  have hat : outAtAccesses s c s.x s.y ⊆ inside := outAtAccesses_inside h.column
  unfold outAccesses
  rw [Set.union_subset_iff, and_iff_right hat]
  exact ⟨fun hsub hs k hk => hsub ⟨hs.1, hs.2, hk⟩, fun hall k hk => hall ⟨hk.1, hk.2.1⟩ hk.2.2⟩

theorem Sized.outAccesses_inside_iff (h : Sized s) : outAccesses s c ⊆ inside ↔ OutInside s c := by
  have hsame : ScrollInside (Terminal.atLastRow s c) 1 ↔ ScrollInside (Terminal.termOutAt s c s.x s.y) 1 := by
    unfold Terminal.atLastRow
    rw [advance_eq]
    rfl
  rw [h.outAccesses_subset_iff, (h.atLastRow c).scrollAccesses_inside_iff (by decide), hsame]
  rfl

theorem Settled.outStrAccesses_inside_iff {str : List UInt8} (h : Settled s) :
    outStrAccesses s str ⊆ inside ↔ OutStrInside s str := by
  induction str generalizing s with
  | nil => exact ⟨fun _ => trivial, fun _ => Set.empty_subset _⟩
  | cons c str ih =>
    unfold OutStrInside
    constructor
    · intro hsub hc
      refine ⟨h.outAccesses_inside_iff.mp fun k hk => hsub ⟨hc, .inl hk⟩, fun t ht => ?_⟩
      exact (ih (h.out ht)).mp fun k hk => hsub ⟨hc, .inr ⟨t, ht, hk⟩⟩
    · rintro hall k ⟨hc, hk | ⟨t, ht, hk⟩⟩
      · exact h.outAccesses_inside_iff.mpr (hall hc).1 hk
      · exact (ih (h.out ht)).mpr ((hall hc).2 t ht) hk

theorem Settled.accesses_inside_iff {op : Call} (h : Settled s) :
    accesses s op ⊆ inside ↔ CallInside s op := by
  cases op with
  | out c => exact h.outAccesses_inside_iff
  | outStr str => exact h.outStrAccesses_inside_iff
  | clear => exact ⟨fun _ => trivial, fun _ => h.clearAccesses_inside⟩
  | scroll lines => exact h.scrollAccesses_inside_iff lines.toNat_lt
  | resize w k =>
    refine ⟨fun _ => trivial, fun _ => (h.resized w.toNat k.toNat).redrawAccesses_inside_iff.mpr ?_⟩
    intro _ i j _ _
    change TERM_MAX_HEIGHT ∣ s.scrolling - _
    rw [h.scrolling, Nat.zero_sub]
    exact Nat.dvd_zero _

theorem Settled.staysInside_iff {ops : List Call} (h : Settled s) : StaysInside s ops ↔ RunInside s ops := by
  induction ops generalizing s with
  | nil => exact .rfl
  | cons op ops ih =>
    unfold StaysInside RunInside
    rw [h.accesses_inside_iff]
    refine and_congr_right fun _ => forall_congr' fun t => forall_congr' fun ht => ?_
    exact ih (h.call ht)

/-- A sequence of calls after boot accesses the buffer inside its bounds exactly if no scroll in
skip mode brings the line counter to its reserved value, the screen of one cell apart. -/
theorem accesses_inside_run_iff (ops : List Call) : StaysInside boot ops ↔ RunInside boot ops :=
  boot_settled.staysInside_iff

/-- On a square screen a scroll that brings the counter to its reserved value reads far in front
of the buffer. -/
theorem scroll_reads_in_front : ∃ s, call boot (.resize 2 2) = some s ∧
    -1411200 ∈ accesses s (.scroll 65535) ∧ ¬ StaysInside boot [.resize 2 2, .scroll 65535] := by
  have hexec : (call boot (.resize 2 2)).map
      (fun s => (s.width, s.height, s.lastWidth, s.bufferLine)) = some (2, 2, 2, 0) := by
    decide +kernel
  obtain ⟨s, hs, hfields⟩ := map_eq_some_iff.mp hexec
  simp only [Prod.mk.injEq] at hfields
  obtain ⟨hwidth, hheight, hlast, hline⟩ := hfields
  obtain ⟨hw, hh, hl, hcount⟩ := scrolledBy_fields s 65535
  have hskip : SkipMode (scrolledBy s 65535) := by
    unfold SkipMode
    omega
  have hidx : prevIdx (scrolledBy s 65535) 0 0 = -1411200 := by
    have hzero : (scrolledBy s 65535).bufferLine = 0 := by
      rw [hcount, hline]
      rfl
    have hlines : (scrolledBy s 65535).scrolling = 65535 := rfl
    unfold prevIdx
    rw [hzero, hlines]
    rfl
  have hmem : -1411200 ∈ accesses s (.scroll 65535) := by
    refine ⟨by decide, .inr (.inr ⟨0, 0, ?_⟩)⟩
    change 0 < (bufferCheck (scrolledBy s 65535)).width ∧ 0 < (bufferCheck (scrolledBy s 65535)).height ∧
      (_ ∨ SkipMode (bufferCheck (scrolledBy s 65535)) ∧ _ = prevIdx (bufferCheck (scrolledBy s 65535)) 0 0)
    rw [scrolledBy_check, hw, hh, hidx, hwidth, hheight]
    exact ⟨by decide, by decide, .inr ⟨hskip, rfl⟩⟩
  refine ⟨s, hs, hmem, fun hstays => ?_⟩
  have hinside := (hstays.2 s hs).1 hmem
  exact absurd hinside.1 (by decide)

end Comus.Terminal
