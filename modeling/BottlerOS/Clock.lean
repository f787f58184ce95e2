import BottlerOS.ProcessFields

/-! `Kernel/drivers/time.c` over the clock's registers. `getTimeOfDay` weighs months and years
by their average lengths, and multiplies in `int`. The sleepers of `checkSleeping` rely on it:
a later instant should have a larger number. -/

namespace BottlerOS.Clock
open Machine Scheduler ProcessFields

def SECONDS : Nat := 0
def MINUTES : Nat := 2
def HOURS : Nat := 4
def DAY : Nat := 7
def MONTH : Nat := 8
def YEAR : Nat := 9

/-- `bcdToDecimal`, on the byte in `al`. -/
def bcdToDecimal (al : Nat) : Nat := (al / 16 * 10 + al % 16) % 256

/-- `getTimeGen`: the register is read through the ports 70h and 71h. -/
def getTimeGen (cmos : Nat → Nat) (option : Nat) : Int := bcdToDecimal (cmos option)

/-- The product of two `int`s, as the processor computes it. -/
def intMul (a b : Int) : Int := int32 (a * b)

def getTimeFrom2000 : Int :=
  let years := intMul 0 31557600
  let months := intMul 1 2629800
  let days := intMul 1 86400
  years + months + days

def getTimeOfDay (cmos : Nat → Nat) : Int :=
  let years := intMul (getTimeGen cmos YEAR) 31557600
  let months := intMul (getTimeGen cmos MONTH) 2629800
  let days := intMul (getTimeGen cmos DAY) 86400
  let hours := intMul (getTimeGen cmos HOURS) 3600
  let minutes := intMul (getTimeGen cmos MINUTES) 60
  let seconds := getTimeGen cmos SECONDS
  let total := years + months + days + hours + minutes + seconds
  total - getTimeFrom2000

/-- The product of two `int`s is an `int`. -/
def Fits (a b : Int) : Prop := -2147483648 ≤ a * b ∧ a * b ≤ INT_MAX

/-- No product of `getTimeOfDay` overflows. -/
structure ProductsFit (cmos : Nat → Nat) : Prop where
  years : Fits (getTimeGen cmos YEAR) 31557600
  months : Fits (getTimeGen cmos MONTH) 2629800
  days : Fits (getTimeGen cmos DAY) 86400
  hours : Fits (getTimeGen cmos HOURS) 3600
  minutes : Fits (getTimeGen cmos MINUTES) 60

/-- The length of a month of `2000 + year`; from 2000 to 2099 every fourth year is a leap year. -/
def daysIn (year month : Nat) : Nat :=
  if month = 2 then (if year % 4 = 0 then 29 else 28)
  else if month = 4 ∨ month = 6 ∨ month = 9 ∨ month = 11 then 30 else 31

/-- An instant of the years 2000 to 2099. -/
structure Instant where
  year : Nat
  month : Nat
  day : Nat
  hour : Nat
  minute : Nat
  second : Nat
  year_lt : year < 100
  month_pos : 1 ≤ month
  month_le : month ≤ 12
  day_pos : 1 ≤ day
  day_le : day ≤ daysIn year month
  hour_lt : hour < 24
  minute_lt : minute < 60
  second_lt : second < 60

namespace Instant

/-- Seconds since midnight. -/
def time (t : Instant) : Nat := t.hour * 3600 + t.minute * 60 + t.second

/-- Months since the beginning of 2000, and one. -/
def months (t : Instant) : Nat := t.year * 12 + t.month

def Earlier (t u : Instant) : Prop :=
  t.months < u.months ∨ (t.months = u.months ∧
    (t.day < u.day ∨ (t.day = u.day ∧ t.time < u.time)))

instance (t u : Instant) : Decidable (t.Earlier u) :=
  inferInstanceAs (Decidable (_ ∨ (_ ∧ (_ ∨ (_ ∧ _)))))

/-- A number below 100 in binary coded decimal. -/
def bcd (n : Nat) : Nat := n / 10 * 16 + n % 10

/-- The registers of the clock at an instant. -/
def cmos (t : Instant) (register : Nat) : Nat :=
  if register = SECONDS then bcd t.second
  else if register = MINUTES then bcd t.minute
  else if register = HOURS then bcd t.hour
  else if register = DAY then bcd t.day
  else if register = MONTH then bcd t.month
  else bcd t.year

end Instant

section
variable {t u : Instant}

theorem daysIn_le (year month : Nat) : daysIn year month ≤ 31 := by
  unfold daysIn
  split
  · split <;> omega
  · split <;> omega

theorem day_le_31 (t : Instant) : t.day ≤ 31 := Nat.le_trans t.day_le (daysIn_le _ _)

theorem bcdToDecimal_bcd {n : Nat} (small : n < 100) :
    bcdToDecimal (Instant.bcd n) = n := by
  unfold bcdToDecimal Instant.bcd
  omega

/-- The six fields come out of the clock as they are. -/
theorem getTimeGen_cmos (t : Instant) : getTimeGen t.cmos YEAR = t.year ∧
    getTimeGen t.cmos MONTH = t.month ∧ getTimeGen t.cmos DAY = t.day ∧
    getTimeGen t.cmos HOURS = t.hour ∧ getTimeGen t.cmos MINUTES = t.minute ∧
    getTimeGen t.cmos SECONDS = t.second := by
  have day := day_le_31 t
  have month := t.month_le
  have hour := t.hour_lt
  have minute := t.minute_lt
  have second := t.second_lt
  refine ⟨?_, ?_, ?_, ?_, ?_, ?_⟩
  · exact congrArg Nat.cast (bcdToDecimal_bcd t.year_lt)
  · exact congrArg Nat.cast (bcdToDecimal_bcd (n := t.month) (by omega))
  · exact congrArg Nat.cast (bcdToDecimal_bcd (n := t.day) (by omega))
  · exact congrArg Nat.cast (bcdToDecimal_bcd (n := t.hour) (by omega))
  · exact congrArg Nat.cast (bcdToDecimal_bcd (n := t.minute) (by omega))
  · exact congrArg Nat.cast (bcdToDecimal_bcd (n := t.second) (by omega))

/-- The year is the product that can overflow, from 2069 on. -/
theorem productsFit_iff : ProductsFit t.cmos ↔ t.year ≤ 68 := by
  obtain ⟨year, month, day, hour, minute, -⟩ := getTimeGen_cmos t
  have hday := day_le_31 t
  have hmonth := t.month_le
  have hhour := t.hour_lt
  have hminute := t.minute_lt
  constructor
  · intro fit
    have hyear := fit.years
    rw [year, Fits, INT_MAX] at hyear
    omega
  · intro low
    refine ⟨?_, ?_, ?_, ?_, ?_⟩
    · rw [year, Fits, INT_MAX]
      omega
    · rw [month, Fits, INT_MAX]
      omega
    · rw [day, Fits, INT_MAX]
      omega
    · rw [hour, Fits, INT_MAX]
      omega
    · rw [minute, Fits, INT_MAX]
      omega

theorem intMul_fits {a b : Int} (fits : Fits a b) : intMul a b = a * b :=
  int32_of_range fits.1 fits.2

/-- Without overflow, every month counts 2629800 seconds: 30 days, 10 hours and a half. -/
theorem getTimeOfDay_value (low : t.year ≤ 68) : getTimeOfDay t.cmos =
    t.months * 2629800 + t.day * 86400 + t.time - 2716200 := by
  obtain ⟨year, month, day, hour, minute, second⟩ := getTimeGen_cmos t
  have fit := productsFit_iff.mpr low
  have base : getTimeFrom2000 = 2716200 := by decide
  rw [getTimeOfDay, intMul_fits fit.years, intMul_fits fit.months, intMul_fits fit.days,
    intMul_fits fit.hours, intMul_fits fit.minutes, year, month, day, hour, minute, second, base,
    Instant.months, Instant.time]
  omega

/-- What the sleepers need of two instants. -/
structure Monotone (t u : Instant) : Prop where
  fits : ProductsFit t.cmos ∧ ProductsFit u.cmos
  later : getTimeOfDay t.cmos < getTimeOfDay u.cmos
  sleepers : ∀ e, expired (getTimeOfDay t.cmos) e → expired (getTimeOfDay u.cmos) e

/-- From a 31st to the 1st of the next month, with at least 10 hours and a half less on the
clock. -/
def Behind (t u : Instant) : Prop :=
  u.months = t.months + 1 ∧ t.day = 31 ∧ u.day = 1 ∧ u.time + 37800 ≤ t.time

theorem time_lt (t : Instant) : t.time < 86400 := by
  have hhour := t.hour_lt
  have hminute := t.minute_lt
  have hsecond := t.second_lt
  unfold Instant.time
  omega

theorem getTimeOfDay_lt (earlier : t.Earlier u) (low : t.year ≤ 68) (low' : u.year ≤ 68) :
    getTimeOfDay t.cmos < getTimeOfDay u.cmos ↔ ¬ Behind t u := by
  have hday := day_le_31 t
  have hday' := u.day_pos
  have htime := time_lt t
  rw [getTimeOfDay_value low, getTimeOfDay_value low']
  unfold Behind
  rcases earlier with month | ⟨month, day | ⟨day, time⟩⟩
  · by_cases next : u.months = t.months + 1
    · rw [next]
      omega
    · omega
  · have small := time_lt u
    omega
  · omega

/-- For every two instants, the earlier first: the clock's numbers are computed without
overflow and in order exactly when the second is before 2069 and not just behind the end of a
month of 31 days. -/
theorem getTimeOfDay_monotone (t u : Instant) (earlier : t.Earlier u) :
    Monotone t u ↔ u.year ≤ 68 ∧ ¬ Behind t u := by
  have order : t.year ≤ u.year := by
    have h := t.month_le
    have h' := u.month_pos
    have h₁ := t.month_pos
    have h₁' := u.month_le
    unfold Instant.Earlier Instant.months at earlier
    omega
  constructor
  · rintro ⟨⟨-, fits⟩, later, -⟩
    have low := productsFit_iff.mp fits
    exact ⟨low, (getTimeOfDay_lt earlier (Nat.le_trans order low) low).mp later⟩
  · rintro ⟨low, ahead⟩
    have later := (getTimeOfDay_lt earlier (Nat.le_trans order low) low).mpr ahead
    refine ⟨⟨productsFit_iff.mpr (Nat.le_trans order low), productsFit_iff.mpr low⟩, later,
      fun e he => ?_⟩
    simp only [expired, ge_iff_le, decide_eq_true_eq] at he ⊢
    omega

end

/-- The last second of January 2021. -/
def january : Instant :=
  ⟨21, 1, 31, 23, 59, 59, by decide, by decide, by decide, by decide, by decide, by decide,
    by decide, by decide⟩

/-- The first second of February 2021. -/
def february : Instant :=
  ⟨21, 2, 1, 0, 0, 0, by decide, by decide, by decide, by decide, by decide, by decide, by decide,
    by decide⟩

/-- One second later the number is 48599 smaller. -/
theorem february_behind : january.Earlier february ∧
    getTimeOfDay january.cmos = getTimeOfDay february.cmos + 48599 ∧
    ¬ Monotone january february := by
  have back : getTimeOfDay january.cmos = getTimeOfDay february.cmos + 48599 := by decide
  refine ⟨by decide, back, fun monotone => ?_⟩
  have later := monotone.later
  omega

theorem getTimeOfDay_monotone_day : january.Earlier february ∧
    (Monotone january february ↔ february.year ≤ 68 ∧ ¬ Behind january february) :=
  ⟨by decide, getTimeOfDay_monotone january february (by decide)⟩

end BottlerOS.Clock
