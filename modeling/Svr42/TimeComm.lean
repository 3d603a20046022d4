import Svr42.Calendar

/-! Broken-down times: `offtime` and `gmtime`, and what a `struct tm` must hold to show a time. -/

namespace Svr42.TimeComm
open Calendar List Nat

@[ext]
structure Tm where
  tm_sec : Int
  tm_min : Int
  tm_hour : Int
  tm_mday : Int
  tm_mon : Int
  tm_year : Int
  tm_wday : Int
  tm_yday : Int
  tm_isdst : Int
deriving DecidableEq

def SEC_PER_MIN : Int := 60

def SEC_PER_HOUR : Int := 3600

def SEC_PER_DAY : Int := 86400

def DAYS_PER_WEEK : Int := 7

def EPOCH_YEAR : Int := 1970

def EPOCH_WDAY : Int := 4

def TM_YEAR_BASE : Int := 1900

/-- What a variable of type `int`, `long` or `time_t` holds once a value is stored in it. -/
def long (v : Int) : Int := v.bmod 0x100000000

def isleap (y : Int) : Bool :=
  decide (y.tmod 4 = 0 ∧ y.tmod 100 ≠ 0) || decide (y.tmod 400 = 0)

def year_lengths (yleap : Bool) : Int := if yleap then 366 else 365

def mon_lengths (yleap : Bool) : List Int :=
  if yleap then [31, 29, 31, 30, 31, 30, 31, 31, 30, 31, 30, 31]
  else [31, 28, 31, 30, 31, 30, 31, 31, 30, 31, 30, 31]

/-! ### The loops -/

/-- `while (rem < 0)`; the loops here have a bound on their steps. -/
def lowerDays : Nat → Int → Int → Int × Int
  | 0, days, rem => (days, rem)
  | fuel + 1, days, rem =>
      if rem < 0 then lowerDays fuel (days - 1) (rem + SEC_PER_DAY) else (days, rem)

/-- `while (rem >= SECS_PER_DAY)` -/
def raiseDays : Nat → Int → Int → Int × Int
  | 0, days, rem => (days, rem)
  | fuel + 1, days, rem =>
      if rem ≥ SEC_PER_DAY then raiseDays fuel (days + 1) (rem - SEC_PER_DAY) else (days, rem)

/-- The years after the first, for `days >= 0`. -/
def yearsUp : Nat → Int → Int → Int × Int
  | 0, y, days => (y, days)
  | fuel + 1, y, days =>
      if days < year_lengths (isleap y) then (y, days)
      else yearsUp fuel (y + 1) (days - year_lengths (isleap y))

/-- The years before the first, for `days < 0`. -/
def yearsDown : Nat → Int → Int → Int × Int
  | 0, y, days => (y, days)
  | fuel + 1, y, days =>
      if days + year_lengths (isleap (y - 1)) < 0 then
        yearsDown fuel (y - 1) (days + year_lengths (isleap (y - 1)))
      else (y - 1, days + year_lengths (isleap (y - 1)))

/-- The months of the year, with their lengths `ip` from the month `mon` on. -/
def months : List Int → Int → Int → Int × Int
  | [], mon, days => (mon, days)
  | len :: ip, mon, days => if days ≥ len then months ip (mon + 1) (days - len) else (mon, days)

def offtime (clock offset : Int) : Tm :=
  let fuel := offset.natAbs / 86400 + 2
  let low := lowerDays fuel (clock.tdiv SEC_PER_DAY) (clock.tmod SEC_PER_DAY + offset)
  let day := raiseDays fuel low.1 low.2
  let days := day.1
  let rem := day.2
  let wday := (EPOCH_WDAY + days).tmod DAYS_PER_WEEK
  let year :=
    if days ≥ 0 then yearsUp (days.natAbs / 365 + 1) EPOCH_YEAR days
    else yearsDown (days.natAbs / 365 + 1) EPOCH_YEAR days
  let month := months (mon_lengths (isleap year.1)) 0 year.2
  { tm_sec := (rem.tmod SEC_PER_HOUR).tmod SEC_PER_MIN
    tm_min := (rem.tmod SEC_PER_HOUR).tdiv SEC_PER_MIN
    tm_hour := rem.tdiv SEC_PER_HOUR
    tm_mday := month.2 + 1
    tm_mon := month.1
    tm_year := year.1 - TM_YEAR_BASE
    tm_wday := if wday < 0 then wday + DAYS_PER_WEEK else wday
    tm_yday := year.2
    tm_isdst := 0 }

def gmtime (clock : Int) : Tm := offtime clock 0

/-! ### What a broken-down time shows -/

def Tm.year (tm : Tm) : Int := tm.tm_year + TM_YEAR_BASE

def Tm.day (tm : Tm) : Int := daysBefore tm.year + tm.tm_yday

/-- All fields are within their ranges, fit together and show the time `t`. -/
structure Shows (tm : Tm) (t : Int) : Prop where
  sec : 0 ≤ tm.tm_sec ∧ tm.tm_sec < 60
  min : 0 ≤ tm.tm_min ∧ tm.tm_min < 60
  hour : 0 ≤ tm.tm_hour ∧ tm.tm_hour < 24
  mon : 0 ≤ tm.tm_mon ∧ tm.tm_mon < 12
  mday : 1 ≤ tm.tm_mday ∧ tm.tm_mday ≤ monthLength tm.year tm.tm_mon.toNat
  yday : tm.tm_yday = monthStart tm.year tm.tm_mon.toNat + tm.tm_mday - 1
  wday : tm.tm_wday = weekday tm.day
  time : t = 86400 * tm.day + 3600 * tm.tm_hour + 60 * tm.tm_min + tm.tm_sec

theorem Shows.yday_bounds {tm : Tm} {t : Int} (h : Shows tm t) :
    0 ≤ tm.tm_yday ∧ tm.tm_yday < yearLength tm.year := by
  have hmon := h.mon
  have hmday := h.mday
  have hlt := monthStart_lt_year tm.year (show tm.tm_mon.toNat < 12 by omega)
    (show tm.tm_mday - 1 < monthLength tm.year tm.tm_mon.toNat by omega)
  have hstart := monthStart_mono tm.year (zero_le tm.tm_mon.toNat)
  rw [monthStart] at hstart
  have hyday := h.yday
  constructor <;> omega

/-- The fields are the only ones that show the time. -/
theorem Shows.unique {tm tm' : Tm} {t : Int} (h : Shows tm t) (h' : Shows tm' t)
    (hdst : tm.tm_isdst = tm'.tm_isdst) : tm = tm' := by
  have htime := h.time
  have htime' := h'.time
  have hsec := h.sec
  have hsec' := h'.sec
  have hmin := h.min
  have hmin' := h'.min
  have hhour := h.hour
  have hhour' := h'.hour
  have hday : tm.day = tm'.day := by omega
  obtain ⟨hyear, hyday⟩ := year_unique h.yday_bounds h'.yday_bounds hday
  have hmon := h.mon
  have hmon' := h'.mon
  have hmday := h.mday
  have hmday' := h'.mday
  have hstart := h.yday
  have hstart' := h'.yday
  rw [← hyear] at hmday' hstart'
  obtain ⟨hm, hd⟩ := month_unique (y := tm.year) (d := tm.tm_mday - 1) (e := tm'.tm_mday - 1)
    (by omega) (by omega)
    (show monthStart tm.year tm.tm_mon.toNat + _ = monthStart tm.year tm'.tm_mon.toNat + _ by omega)
  have hwday : tm.tm_wday = tm'.tm_wday := by rw [h.wday, h'.wday, hday]
  have hyr : tm.tm_year = tm'.tm_year := by
    rw [Tm.year, Tm.year] at hyear
    omega
  apply Tm.ext
  · omega
  · omega
  · omega
  · omega
  · omega
  · exact hyr
  · exact hwday
  · exact hyday
  · exact hdst

/-! ### `gmtime` shows its time -/

theorem tmod_eq_zero_iff (y n : Int) : y.tmod n = 0 ↔ y % n = 0 :=
  Int.dvd_iff_tmod_eq_zero.symm.trans Int.dvd_iff_emod_eq_zero

theorem isleap_iff (y : Int) : isleap y = true ↔ Leap y := by
  simp only [isleap, Leap, Bool.or_eq_true, decide_eq_true_eq, ne_eq, tmod_eq_zero_iff]
  omega

theorem year_lengths_isleap (y : Int) : year_lengths (isleap y) = yearLength y := by
  simp only [year_lengths, yearLength, isleap_iff]

theorem mon_lengths_isleap (y : Int) : mon_lengths (isleap y) = monthLengths y := by
  rw [mon_lengths, monthLengths]
  by_cases h : Leap y
  · rw [if_pos ((isleap_iff y).mpr h), if_pos h]
  · rw [if_neg fun hy => h ((isleap_iff y).mp hy), if_neg h]

theorem lowerDays_spec {fuel : Nat} (days rem : Int) (hfuel : 2 ≤ fuel) (h : -SEC_PER_DAY < rem) :
    let r := lowerDays fuel days rem
    86400 * r.1 + r.2 = 86400 * days + rem ∧ 0 ≤ r.2 ∧ (r.2 = rem ∨ r.2 < 86400) := by
  obtain ⟨n, rfl⟩ := Nat.exists_eq_add_of_le' hfuel
  rw [SEC_PER_DAY] at h
  rw [lowerDays, lowerDays, SEC_PER_DAY]
  by_cases hneg : rem < 0
  · rw [if_pos hneg, if_neg (show ¬ rem + 86400 < 0 by omega)]
    refine ⟨?_, ?_, .inr ?_⟩ <;> dsimp only <;> omega
  · rw [if_neg hneg]
    exact ⟨rfl, by dsimp only; omega, .inl rfl⟩

theorem raiseDays_small {fuel : Nat} (days : Int) {rem : Int} (h : rem < SEC_PER_DAY) :
    raiseDays fuel days rem = (days, rem) := by
  cases fuel with
  | zero => rfl
  | succ fuel => rw [raiseDays, if_neg (by omega)]

theorem yearsUp_spec (fuel : Nat) : ∀ (y days : Int), 0 ≤ days → days < 365 * fuel →
    let r := yearsUp fuel y days
    daysBefore r.1 + r.2 = daysBefore y + days ∧ 0 ≤ r.2 ∧ r.2 < yearLength r.1 := by
  induction fuel with
  | zero => intro y days h0 h1; omega
  | succ fuel ih =>
    intro y days h0 h1
    rw [yearsUp, year_lengths_isleap]
    split_ifs with hlt
    · exact ⟨rfl, h0, hlt⟩
    · have hlen : 365 ≤ yearLength y := by rw [yearLength]; split <;> omega
      obtain ⟨hday, hr⟩ := ih (y + 1) (days - yearLength y) (by omega) (by omega)
      refine ⟨?_, hr⟩
      rw [hday, daysBefore_succ]
      omega

theorem yearsDown_spec (fuel : Nat) : ∀ (y days : Int), days < 0 → -days ≤ 365 * fuel →
    let r := yearsDown fuel y days
    daysBefore r.1 + r.2 = daysBefore y + days ∧ 0 ≤ r.2 ∧ r.2 < yearLength r.1 := by
  induction fuel with
  | zero => intro y days h0 h1; omega
  | succ fuel ih =>
    intro y days h0 h1
    rw [yearsDown, year_lengths_isleap]
    have hlen : 365 ≤ yearLength (y - 1) := by rw [yearLength]; split <;> omega
    have hstep := daysBefore_succ (y - 1)
    rw [sub_add_cancel] at hstep
    split_ifs with hlt
    · obtain ⟨hday, hr⟩ := ih (y - 1) (days + yearLength (y - 1)) hlt (by omega)
      refine ⟨?_, hr⟩
      rw [hday]
      omega
    · refine ⟨?_, ?_, ?_⟩ <;> dsimp only <;> omega

/-- The walk through the months, from the month `k` on. -/
theorem months_spec (y : Int) (n : Nat) : ∀ (k : Nat) (days : Int), k + n = 12 → 0 ≤ days →
    monthStart y k + days < yearLength y →
    ∃ j : Nat, j < 12 ∧ (months ((monthLengths y).drop k) k days).1 = j ∧
      0 ≤ (months ((monthLengths y).drop k) k days).2 ∧
      (months ((monthLengths y).drop k) k days).2 < monthLength y j ∧
      monthStart y j + (months ((monthLengths y).drop k) k days).2 = monthStart y k + days := by
  induction n with
  | zero =>
    intro k days hk h0 h1
    obtain rfl : k = 12 := by omega
    rw [monthStart_twelve] at h1
    omega
  | succ n ih =>
    intro k days hk h0 h1
    have hlen : k < (monthLengths y).length := by
      simp only [monthLengths, length_cons, length_nil]
      omega
    have hget : (monthLengths y)[k] = monthLength y k := by
      rw [monthLength, getD_eq_getElem?_getD, getElem?_eq_getElem hlen, Option.getD_some]
    rw [drop_eq_getElem_cons hlen, hget, months]
    split_ifs with hge
    · have hstart : monthStart y (k + 1) = monthStart y k + monthLength y k := rfl
      obtain ⟨j, hj, hm, hpos, hlt, hsum⟩ :=
        ih (k + 1) (days - monthLength y k) (by omega) (by omega) (by omega)
      rw [cast_succ] at hm hpos hlt hsum
      exact ⟨j, hj, hm, hpos, hlt, by omega⟩
    · exact ⟨k, by omega, rfl, h0, by omega, rfl⟩

theorem years_spec (days : Int) :
    let r := if days ≥ 0 then yearsUp (days.natAbs / 365 + 1) EPOCH_YEAR days
      else yearsDown (days.natAbs / 365 + 1) EPOCH_YEAR days
    daysBefore r.1 + r.2 = days ∧ 0 ≤ r.2 ∧ r.2 < yearLength r.1 := by
  have hepoch : daysBefore EPOCH_YEAR = 0 := by decide
  split_ifs with hsign
  · obtain ⟨hday, hr⟩ := yearsUp_spec (days.natAbs / 365 + 1) EPOCH_YEAR days hsign (by omega)
    refine ⟨?_, hr⟩
    rw [hday, hepoch, zero_add]
  · obtain ⟨hday, hr⟩ := yearsDown_spec (days.natAbs / 365 + 1) EPOCH_YEAR days (by omega) (by omega)
    refine ⟨?_, hr⟩
    rw [hday, hepoch, zero_add]

theorem days_spec (clock : Int) :
    let low := lowerDays 2 (clock.tdiv SEC_PER_DAY) (clock.tmod SEC_PER_DAY + 0)
    raiseDays 2 low.1 low.2 = (clock / 86400, clock % 86400) := by
  have hdiv := Int.tmod_add_tdiv_mul clock 86400
  have hlow := Int.lt_tmod_of_pos clock (show (0 : Int) < 86400 by decide)
  have hhigh := Int.tmod_lt_of_pos clock (show (0 : Int) < 86400 by decide)
  obtain ⟨hsum, hpos, hlt⟩ := lowerDays_spec (clock.tdiv SEC_PER_DAY)
    (clock.tmod SEC_PER_DAY + 0) (le_refl 2) (by rw [SEC_PER_DAY]; omega)
  generalize lowerDays 2 (clock.tdiv SEC_PER_DAY) (clock.tmod SEC_PER_DAY + 0) = low at *
  rw [SEC_PER_DAY] at hsum hlt
  have hrem : low.2 < 86400 := by omega
  dsimp only
  rw [raiseDays_small low.1 hrem]
  apply Prod.ext
  · dsimp only; omega
  · dsimp only; omega

theorem wday_spec (days : Int) : (if (EPOCH_WDAY + days).tmod DAYS_PER_WEEK < 0 then
        (EPOCH_WDAY + days).tmod DAYS_PER_WEEK + DAYS_PER_WEEK
      else (EPOCH_WDAY + days).tmod DAYS_PER_WEEK) = weekday days := by
  rw [EPOCH_WDAY, DAYS_PER_WEEK, weekday, Int.tmod_eq_emod]
  split_ifs <;> omega

theorem gmtime_shows (t : Int) : Shows (gmtime t) t := by
  have hdays := days_spec t
  have hpos : 0 ≤ t % 86400 := Int.emod_nonneg t (by decide)
  obtain ⟨hday, hnonneg, hshort⟩ := years_spec (t / 86400)
  simp only [gmtime, offtime, Int.natAbs_zero]
  rw [hdays]
  generalize (if t / 86400 ≥ 0 then _ else _ : Int × Int) = year at *
  obtain ⟨j, hj, hmon, hmday0, hmday, hsum⟩ := months_spec year.1 12 0 year.2 rfl hnonneg
    (by rw [monthStart]; omega)
  rw [mon_lengths_isleap]
  rw [drop_zero, cast_zero] at hmon hmday0 hmday hsum
  generalize months (monthLengths year.1) 0 year.2 = month at *
  rw [monthStart, zero_add] at hsum
  have hyear : year.1 - TM_YEAR_BASE + TM_YEAR_BASE = year.1 := by omega
  have hhour : (t % 86400).tdiv SEC_PER_HOUR = t % 86400 / 3600 := Int.tdiv_eq_ediv_of_nonneg hpos
  have hrem : (t % 86400).tmod SEC_PER_HOUR = t % 86400 % 3600 := Int.tmod_eq_emod_of_nonneg hpos
  have hmin : (t % 86400 % 3600).tdiv SEC_PER_MIN = t % 86400 % 3600 / 60 :=
    Int.tdiv_eq_ediv_of_nonneg (by omega)
  have hsec : (t % 86400 % 3600).tmod SEC_PER_MIN = t % 86400 % 3600 % 60 :=
    Int.tmod_eq_emod_of_nonneg (by omega)
  rw [hrem, hsec, hmin, hhour, wday_spec]
  constructor
  case sec => dsimp only; omega
  case min => dsimp only; omega
  case hour => dsimp only; omega
  case mon => dsimp only; omega
  case mday =>
    rw [Tm.year, hyear, hmon, Int.toNat_natCast]
    dsimp only
    omega
  case yday =>
    rw [Tm.year, hyear, hmon, Int.toNat_natCast]
    dsimp only
    omega
  case wday =>
    rw [Tm.day, Tm.year, hyear, hday]
  case time =>
    rw [Tm.day, Tm.year, hyear, hday]
    dsimp only
    omega

end Svr42.TimeComm
