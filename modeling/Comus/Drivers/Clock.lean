import Comus.Lib.Word
import Mathlib.Algebra.BigOperators.Group.Finset.Basic
import Mathlib.Algebra.Order.BigOperators.Group.Finset
import Mathlib.Tactic

/-!
# The real-time clock (gettime, unixtime)

The driver reads one BCD number from each register of the CMOS and adds up seconds, minutes,
hours, days of the year and years of 365 days. `Reading` is a date and time of the Gregorian
calendar from 2000 to 2099, and `Reading.seconds` its distance from the first second of 2000.
-/

namespace Comus.Clock

open Word Option

abbrev Cmos : Type := UInt8 → UInt8

def CMOS_REG_SEC : UInt8 := 0x00
def CMOS_REG_MIN : UInt8 := 0x02
def CMOS_REG_HOUR : UInt8 := 0x04
def CMOS_REG_WDAY : UInt8 := 0x06
def CMOS_REG_MDAY : UInt8 := 0x07
def CMOS_REG_MON : UInt8 := 0x08
def CMOS_REG_YEAR : UInt8 := 0x09

def cmosRead (cmos : Cmos) (reg : UInt8) : UInt8 :=
  let hex := cmos reg
  (hex &&& 0x0F) + (hex &&& 0xF0) / 16 * 10

def readInt (cmos : Cmos) (reg : UInt8) : Int := (cmosRead cmos reg).toNat

structure Time where
  sec : Int
  min : Int
  hour : Int
  mday : Int
  mon : Int
  year : Int
  wday : Int
  yday : Int
  yn : Int
  cen : Int
  leap : Bool
  deriving Repr, DecidableEq

def mdayOffset : List Int := [0, 31, 59, 90, 120, 151, 181, 212, 243, 273, 304, 334]

def mdayOffsetAt (mon : Int) : Option Int := if mon < 0 then none else mdayOffset[mon.toNat]?

def gettime (cmos : Cmos) : Option Time :=
  let mday := readInt cmos CMOS_REG_MDAY
  let mon := readInt cmos CMOS_REG_MON - 1
  let yn := readInt cmos CMOS_REG_YEAR
  let cen := 20
  let year := yn + cen * 100
  let leap := decide (year.tmod 4 = 0 ∧ year.tmod 100 ≠ 0)
  (mdayOffsetAt mon).map fun offset =>
    { sec := readInt cmos CMOS_REG_SEC
      min := readInt cmos CMOS_REG_MIN
      hour := readInt cmos CMOS_REG_HOUR
      wday := readInt cmos CMOS_REG_WDAY - 1
      mday := mday
      mon := mon
      yn := yn
      cen := cen
      leap := leap
      yday := if leap ∧ mon > 2 then offset + mday + 1 else offset + mday
      year := year - 1900 }

def mulInt (a b : Int) : Int := toI32 (a * b)

/-- `unix += z`: the `int` is converted to 64 bits. -/
def addUnix (unix : Nat) (z : Int) : Nat := toU64 (unix + z)

def unixtime (cmos : Cmos) : Option Nat :=
  (gettime cmos).map fun time =>
    let unix := addUnix 0 time.sec
    let unix := addUnix unix (mulInt time.min 60)
    let unix := addUnix unix (mulInt (mulInt time.hour 60) 60)
    let unix := addUnix unix (mulInt (mulInt (mulInt time.yday 60) 60) 24)
    addUnix unix (mulInt (mulInt (mulInt (mulInt time.year 60) 60) 24) 365)

def isLeap (year : Nat) : Bool := decide (year % 4 = 0 ∧ (year % 100 ≠ 0 ∨ year % 400 = 0))

def yearLength (year : Nat) : Nat := if isLeap year then 366 else 365

def monthLength (year : Nat) : Nat → Nat
  | 2 => if isLeap year then 29 else 28
  | 4 | 6 | 9 | 11 => 30
  | _ => 31

structure Reading where
  year : Nat
  mon : Nat
  mday : Nat
  hour : Nat
  min : Nat
  sec : Nat
  year_ge : 2000 ≤ year
  year_le : year ≤ 2099
  mon_pos : 1 ≤ mon
  mon_le : mon ≤ 12
  mday_pos : 1 ≤ mday
  mday_le : mday ≤ monthLength year mon
  hour_lt : hour < 24
  min_lt : min < 60
  sec_lt : sec < 60

namespace Reading

def days (r : Reading) : Nat :=
  ∑ k ∈ Finset.range (r.year - 2000), yearLength (2000 + k) +
    ∑ k ∈ Finset.range (r.mon - 1), monthLength r.year (k + 1) + (r.mday - 1)

def seconds (r : Reading) : Nat := ((r.days * 24 + r.hour) * 60 + r.min) * 60 + r.sec

end Reading

def bcd (n : Nat) : UInt8 := UInt8.ofNat (n / 10 * 16 + n % 10)

/-- The registers hold the reading; the day of the week may be anything. -/
structure Shows (cmos : Cmos) (r : Reading) : Prop where
  sec : cmos CMOS_REG_SEC = bcd r.sec
  min : cmos CMOS_REG_MIN = bcd r.min
  hour : cmos CMOS_REG_HOUR = bcd r.hour
  mday : cmos CMOS_REG_MDAY = bcd r.mday
  mon : cmos CMOS_REG_MON = bcd r.mon
  year : cmos CMOS_REG_YEAR = bcd (r.year - 2000)

def Elapses (c₁ c₂ : Cmos) (r₁ r₂ : Reading) : Prop :=
  ∃ u₁ u₂, unixtime c₁ = some u₁ ∧ unixtime c₂ = some u₂ ∧ u₂ = u₁ + (r₂.seconds - r₁.seconds)

/-- The leap days up to the reading that `unixtime` leaves out: those of the years before, and that
of its own year in March, where the driver compares a month counted from zero; it takes 2000
for a common year. -/
def missed (r : Reading) : Nat :=
  (r.year - 2000 + 3) / 4 +
    if isLeap r.year ∧ (r.mon = 3 ∨ r.year = 2000 ∧ 3 ≤ r.mon) then 1 else 0

def turn : Reading :=
  { year := 2036, mon := 3, mday := 11, hour := 6, min := 28, sec := 16
    year_ge := by decide, year_le := by decide, mon_pos := by decide, mon_le := by decide
    mday_pos := by decide, mday_le := by decide, hour_lt := by decide, min_lt := by decide
    sec_lt := by decide }

def Early (r : Reading) : Prop := r.seconds < turn.seconds

variable {cmos : Cmos} {reg : UInt8} {r : Reading} {n : Nat}

theorem cmosRead_bcd : ∀ n, n < 100 →
    ((bcd n &&& 0x0F) + (bcd n &&& 0xF0) / 16 * 10).toNat = n := by
  decide +kernel

theorem readInt_of_bcd (h : cmos reg = bcd n) (hn : n < 100) : readInt cmos reg = n := by
  unfold readInt cmosRead
  rw [h, cmosRead_bcd n hn]

theorem Reading.mday_lt (r : Reading) : r.mday ≤ 31 := by
  refine Nat.le_trans r.mday_le ?_
  unfold monthLength
  split
  · split_ifs <;> decide
  all_goals decide

theorem leap_iff {yn : Nat} (h : yn < 100) :
    (((yn : Int) + 20 * 100).tmod 4 = 0 ∧ ((yn : Int) + 20 * 100).tmod 100 ≠ 0) ↔ yn % 4 = 0 ∧ yn ≠ 0 := by
  rw [Int.tmod_eq_emod_of_nonneg (by omega), Int.tmod_eq_emod_of_nonneg (by omega)]
  omega

theorem isLeap_iff (r : Reading) : isLeap r.year = true ↔ (r.year - 2000) % 4 = 0 := by
  have hge := r.year_ge
  have hle := r.year_le
  unfold isLeap
  rw [decide_eq_true_eq]
  omega

theorem yearLength_add {k : Nat} (hk : k < 100) :
    yearLength (2000 + k) = if k % 4 = 0 then 366 else 365 := by
  have hleap : isLeap (2000 + k) = decide (k % 4 = 0) := by
    unfold isLeap
    rw [decide_eq_decide]
    omega
  unfold yearLength
  rw [hleap]
  simp

theorem sum_yearLength {k : Nat} (hk : k ≤ 100) :
    ∑ j ∈ Finset.range k, yearLength (2000 + j) = 365 * k + (k + 3) / 4 := by
  induction k with
  | zero => rfl
  | succ k ih =>
    rw [Finset.sum_range_succ, ih (by omega), yearLength_add (by omega)]
    split_ifs with hmod
    · omega
    · omega

theorem mdayOffset_sum (year : Nat) {k : Nat} (hk : k < 12) :
    ∃ offset : Int, mdayOffset[k]? = some offset ∧ 0 ≤ offset ∧ offset ≤ 334 ∧
      offset + (if isLeap year ∧ 2 ≤ k then 1 else 0) =
        (∑ j ∈ Finset.range k, monthLength year (j + 1) : Nat) := by
  cases hleap : isLeap year with
  | false => interval_cases k <;> simp [mdayOffset, monthLength, hleap, Finset.sum_range_succ]
  | true => interval_cases k <;> simp [mdayOffset, monthLength, hleap, Finset.sum_range_succ]

theorem gettime_shows (h : Shows cmos r) : ∃ time, gettime cmos = some time ∧
    time.sec = r.sec ∧ time.min = r.min ∧ time.hour = r.hour ∧ time.year = (r.year : Int) - 1900 ∧
    0 ≤ time.yday ∧ time.yday ≤ 366 ∧
    time.yday + 365 * ((r.year : Int) - 2000) + missed r = r.days + 1 := by
  have hge := r.year_ge
  have hle := r.year_le
  have hmon := r.mon_pos
  have hmon' := r.mon_le
  have hday := r.mday_pos
  have hday' := r.mday_lt
  have hhour := r.hour_lt
  have hmin := r.min_lt
  have hsec := r.sec_lt
  have hyn := readInt_of_bcd h.year (by omega)
  have hmonth := readInt_of_bcd h.mon (by omega)
  obtain ⟨offset, htable, hpos, hmax, hsum⟩ := mdayOffset_sum r.year (k := r.mon - 1) (by omega)
  have hoffset : mdayOffsetAt ((r.mon : Int) - 1) = some offset := by
    unfold mdayOffsetAt
    rw [if_neg (by omega), show ((r.mon : Int) - 1).toNat = r.mon - 1 by omega, htable]
  simp only [gettime, hmonth, hoffset, hyn, map_some, readInt_of_bcd h.sec (by omega),
    readInt_of_bcd h.min (by omega), readInt_of_bcd h.hour (by omega), readInt_of_bcd h.mday (by omega),
    leap_iff (show r.year - 2000 < 100 by omega), decide_eq_true_eq]
  refine ⟨_, rfl, rfl, rfl, rfl, by dsimp only; omega, ?_⟩
  unfold missed Reading.days
  rw [sum_yearLength (by omega)]
  simp only [isLeap_iff] at hsum ⊢
  split_ifs at hsum ⊢ <;> omega

theorem mulInt_of_lt {a b : Int} (h0 : 0 ≤ a * b) (h : a * b < 2^31) : mulInt a b = a * b := by
  unfold mulInt
  exact toI32_of_lt h0 h

/-- The years are more seconds than an `int` holds, for every year of the century. -/
theorem mulInt_years {year : Int} (h0 : 100 ≤ year) (h : year < 200) :
    mulInt (mulInt (mulInt (mulInt year 60) 60) 24) 365 = year * 31536000 - 2^32 := by
  rw [mulInt_of_lt (a := year) (by omega) (by omega), mulInt_of_lt (a := year * 60) (by omega) (by omega),
    mulInt_of_lt (a := year * 60 * 60) (by omega) (by omega)]
  unfold mulInt
  rw [toI32_of_ge (by omega) (by omega)]
  omega

theorem mulInt_days {yday : Int} (h0 : 0 ≤ yday) (h : yday ≤ 366) :
    mulInt (mulInt (mulInt yday 60) 60) 24 = yday * 86400 := by
  rw [mulInt_of_lt (a := yday) (by omega) (by omega), mulInt_of_lt (a := yday * 60) (by omega) (by omega),
    mulInt_of_lt (a := yday * 60 * 60) (by omega) (by omega)]
  omega

def signedTime (r : Reading) : Int := (r.seconds : Int) - 86400 * missed r - 1141280896

theorem unixtime_shows (h : Shows cmos r) : unixtime cmos = some (toU64 (signedTime r)) := by
  obtain ⟨time, htime, hsec, hmin, hhour, hyear, hpos, hmax, hdays⟩ := gettime_shows h
  have hge := r.year_ge
  have hle := r.year_le
  have hhour' := r.hour_lt
  have hmin' := r.min_lt
  have hminutes : mulInt time.min 60 = time.min * 60 := mulInt_of_lt (by omega) (by omega)
  have hhours : mulInt (mulInt time.hour 60) 60 = time.hour * 3600 := by
    rw [mulInt_of_lt (a := time.hour) (by omega) (by omega),
      mulInt_of_lt (a := time.hour * 60) (by omega) (by omega)]
    omega
  unfold unixtime
  rw [htime]
  simp only [map_some, some.injEq, hminutes, hhours, mulInt_days hpos hmax,
    mulInt_years (show 100 ≤ time.year by omega) (by omega), addUnix, toU64_add]
  congr 1
  unfold signedTime Reading.seconds
  push_cast
  omega

theorem Reading.days_eq (r : Reading) : ∃ d, r.days = 365 * (r.year - 2000) + (r.year - 2000 + 3) / 4 + d ∧
    d ≤ 365 ∧ (r.mon ≤ 2 → d < 60) ∧ (4 ≤ r.mon → 90 ≤ d) := by
  have hle := r.year_le
  have hmon := r.mon_pos
  have hmon' := r.mon_le
  have hday := r.mday_pos
  have hday' := r.mday_le
  refine ⟨_, by rw [days, sum_yearLength (by omega), add_assoc], ?_⟩
  generalize r.mon = mon at *
  generalize r.mday = mday at *
  cases hleap : isLeap r.year with
  | false =>
    interval_cases mon <;> simp [monthLength, hleap, Finset.sum_range_succ] at hday' ⊢ <;> omega
  | true =>
    interval_cases mon <;> simp [monthLength, hleap, Finset.sum_range_succ] at hday' ⊢ <;> omega

theorem turn_seconds : turn.seconds = 1142144896 := by decide +kernel

theorem signedTime_neg_iff (r : Reading) : signedTime r < 0 ↔ Early r := by
  obtain ⟨d, hdays, hmax, hwinter, hspring⟩ := r.days_eq
  have hge := r.year_ge
  have hhour := r.hour_lt
  have hmin := r.min_lt
  have hsec := r.sec_lt
  unfold Early
  rw [turn_seconds]
  unfold signedTime missed Reading.seconds
  rw [hdays]
  simp only [isLeap_iff]
  rcases Nat.lt_trichotomy r.year 2036 with hyear | hyear | hyear
  · split_ifs <;> omega
  · split_ifs <;> omega
  · split_ifs <;> omega

theorem signedTime_bounds (r : Reading) : -2^32 ≤ signedTime r ∧ signedTime r < 2^33 := by
  obtain ⟨d, hdays, hmax, -⟩ := r.days_eq
  have hle := r.year_le
  have hhour := r.hour_lt
  have hmin := r.min_lt
  have hsec := r.sec_lt
  unfold signedTime missed Reading.seconds
  rw [hdays]
  split_ifs <;> omega

/-- `unixtime` counts the seconds between two readings exactly if it misses the same leap days at
both, and its 32-bit product of years does not change the sign of the sum between them. -/
theorem unixtime_elapsed_iff {c₁ c₂ : Cmos} {r₁ r₂ : Reading} (h₁ : Shows c₁ r₁) (h₂ : Shows c₂ r₂)
    (hlt : r₁.seconds < r₂.seconds) :
    Elapses c₁ c₂ r₁ r₂ ↔ missed r₁ = missed r₂ ∧ (Early r₁ ↔ Early r₂) := by
  have hb₁ := signedTime_bounds r₁
  have hb₂ := signedTime_bounds r₂
  have helapses : Elapses c₁ c₂ r₁ r₂ ↔
      toU64 (signedTime r₂) = toU64 (signedTime r₁) + (r₂.seconds - r₁.seconds) := by
    unfold Elapses
    rw [unixtime_shows h₁, unixtime_shows h₂]
    simp
  rw [helapses, ← signedTime_neg_iff, ← signedTime_neg_iff]
  have hdiff : signedTime r₂ - signedTime r₁ =
      (r₂.seconds : Int) - r₁.seconds - 86400 * ((missed r₂ : Int) - missed r₁) := by
    unfold signedTime
    omega
  have hturn : signedTime r₂ < 0 → signedTime r₁ < 0 := by
    rw [signedTime_neg_iff, signedTime_neg_iff]
    exact Nat.lt_trans hlt
  generalize signedTime r₁ = s₁ at *
  generalize signedTime r₂ = s₂ at *
  rcases lt_or_ge s₁ 0 with hs₁ | hs₁
  · rcases lt_or_ge s₂ 0 with hs₂ | hs₂
    · rw [toU64_of_neg hs₁ (by omega), toU64_of_neg hs₂ (by omega)]
      omega
    · rw [toU64_of_neg hs₁ (by omega), toU64_of_nonneg hs₂ (by omega)]
      omega
  · rcases lt_or_ge s₂ 0 with hs₂ | hs₂
    · exact absurd (hturn hs₂) (not_lt.mpr hs₁)
    · rw [toU64_of_nonneg hs₁ (by omega), toU64_of_nonneg hs₂ (by omega)]
      omega

def registers (r : Reading) : Cmos := fun reg =>
  if reg = CMOS_REG_SEC then bcd r.sec
  else if reg = CMOS_REG_MIN then bcd r.min
  else if reg = CMOS_REG_HOUR then bcd r.hour
  else if reg = CMOS_REG_MDAY then bcd r.mday
  else if reg = CMOS_REG_MON then bcd r.mon
  else if reg = CMOS_REG_YEAR then bcd (r.year - 2000)
  else 0

theorem shows_registers (r : Reading) : Shows (registers r) r := ⟨rfl, rfl, rfl, rfl, rfl, rfl⟩

def february (mday : Nat) (hpos : 1 ≤ mday) (hle : mday ≤ 29) : Reading :=
  { year := 2004, mon := 2, mday := mday, hour := 12, min := 0, sec := 0
    year_ge := by decide, year_le := by decide, mon_pos := by decide, mon_le := by decide
    mday_pos := hpos, mday_le := hle, hour_lt := by decide, min_lt := by decide, sec_lt := by decide }

theorem unixtime_elapsed_february :
    Elapses (registers (february 28 (by decide) (by decide))) (registers (february 29 (by decide) (by decide)))
      (february 28 (by decide) (by decide)) (february 29 (by decide) (by decide)) :=
  (unixtime_elapsed_iff (shows_registers _) (shows_registers _) (by decide +kernel)).mpr
    ⟨by decide +kernel, by unfold Early; decide +kernel⟩

def marchFirst : Reading :=
  { year := 2004, mon := 3, mday := 1, hour := 12, min := 0, sec := 0
    year_ge := by decide, year_le := by decide, mon_pos := by decide, mon_le := by decide
    mday_pos := by decide, mday_le := by decide, hour_lt := by decide, min_lt := by decide
    sec_lt := by decide }

/-- From the 29th of February to the first of March the time stands still. -/
theorem unixtime_repeats :
    (february 29 (by decide) (by decide)).seconds + 86400 = marchFirst.seconds ∧
      unixtime (registers marchFirst) = unixtime (registers (february 29 (by decide) (by decide))) ∧
      ¬ Elapses (registers (february 29 (by decide) (by decide))) (registers marchFirst)
        (february 29 (by decide) (by decide)) marchFirst := by
  have hday : (february 29 (by decide) (by decide)).seconds + 86400 = marchFirst.seconds := by
    decide +kernel
  have hsame : unixtime (registers marchFirst) =
      unixtime (registers (february 29 (by decide) (by decide))) := by
    decide +kernel
  refine ⟨hday, hsame, ?_⟩
  rintro ⟨u₁, u₂, h₁, h₂, helapsed⟩
  rw [hsame, h₁] at h₂
  have hsum := some.inj h₂
  omega

end Comus.Clock
