import Svr42.TzSet

/-! `mktime`: the additions with a guard against overflow, and the way from the fields of a `struct tm` to a time. -/

namespace Svr42.Mktime
open TimeComm TzRules TzSet

def INT_MIN : Int := -0x80000000

def LONG_MAX : Int := 0x7fffffff

def LONG_MIN : Int := -0x80000000

def SEC_PER_YEAR : Int := 31536000

def LEAP_TO_70 : Int := 17

/-- The sum, if the addition gives no error. -/
def addint (sum addend : Int) : Option Int :=
  if sum > 0 then
    if INT_MAX - sum < addend then none else some (sum + addend)
  else if INT_MIN - sum > addend then none
  else some (sum + addend)

def add (sum addend : Int) : Option Int :=
  if sum > 0 then
    if LONG_MAX - sum < addend then none else some (sum + addend)
  else if LONG_MIN - sum > addend then none
  else some (sum + addend)

def multadd (sum value scale : Int) : Option Int :=
  if value < -1 then
    if LONG_MIN.tdiv value < scale then none else add sum (long (value * scale))
  else if value > 1 then
    if LONG_MAX.tdiv value < scale then none else add sum (long (value * scale))
  else add sum (long (value * scale))

/-- Seconds, days, hours and minutes. -/
def dayTime (tm : Tm) : Option Int :=
  (addint tm.tm_mday (-1)).bind fun temp =>
    (multadd tm.tm_sec temp SEC_PER_DAY).bind fun secs =>
      (multadd secs tm.tm_hour SEC_PER_HOUR).bind fun secs =>
        multadd secs tm.tm_min SEC_PER_MIN

/-- The months outside the year go to `tm_year`. -/
def normMon (tm : Tm) : Option Tm :=
  if tm.tm_mon ≥ 12 then
    (addint tm.tm_year (tm.tm_mon.tdiv 12)).map fun year =>
      { tm with tm_year := year, tm_mon := tm.tm_mon.tmod 12 }
  else if tm.tm_mon < 0 then
    if tm.tm_mon ≤ LONG_MIN then none
    else
      let temp := -tm.tm_mon
      let n := temp.tdiv 12
      let n := if n * 12 ≠ temp then n + 1 else n
      (addint tm.tm_year (-n)).map fun year =>
        { tm with
          tm_year := year
          tm_mon := if temp.tmod 12 ≠ 0 then 12 - temp.tmod 12 else 0 }
  else some tm

/-- The years since 1970, their leap days and the months. -/
def yearTime (tm : Tm) (secs : Int) : Option Int :=
  (addint tm.tm_year (-70)).bind fun temp =>
    (multadd secs temp SEC_PER_YEAR).bind fun secs =>
      (addint tm.tm_year 3).bind fun temp =>
        (multadd secs (temp.tdiv 4 - 1 - LEAP_TO_70) SEC_PER_DAY).bind fun secs =>
          multadd secs
            ((yday_to_month (decide (tm.tm_year.tmod 4 = 0))).getD tm.tm_mon.toNat 0) SEC_PER_DAY

/-- What follows once the time is known, for `tm_isdst` as given: the result, the fields and the zone. -/
def finish (env : Env) (isdst secs : Int) (z : Zone) : Int × Tm × Zone :=
  let r := localtime env secs z
  let tptr := r.1
  let z := r.2
  let saving := z.timezone - z.altzone
  let day := dstDays z tptr
  let temp := yearSecs tptr
  let summer :=
    if day.1 ≤ day.2 then temp ≥ day.1 ∧ temp < day.2 + saving
    else ¬ (temp ≥ day.2 + saving ∨ temp < day.1)
  if isdst < 0 ∧ summer then
    let secs := long (secs - saving)
    let r := localtime env secs z
    (if secs < 0 then -1 else secs, r)
  else (if secs < 0 then -1 else secs, r)

/-- The result, `*timeptr` and the zone afterwards. -/
def mktime (env : Env) (tm : Tm) (z : Zone) : Int × Tm × Zone :=
  match dayTime tm with
  | none => (-1, tm, ltzset env 0 z)
  | some secs =>
      match normMon tm with
      | none => (-1, tm, ltzset env 0 z)
      | some tm =>
          match yearTime tm secs with
          | none => (-1, tm, ltzset env 0 z)
          | some secs =>
              let z := ltzset env secs z
              match add secs (if tm.tm_isdst > 0 then z.altzone else z.timezone) with
              | none => (-1, tm, ltzset env 0 z)
              | some secs =>
                  if secs < 0 then (-1, tm, ltzset env 0 z)
                  else finish env tm.tm_isdst secs z

end Svr42.Mktime
