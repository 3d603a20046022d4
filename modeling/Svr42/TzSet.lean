import Svr42.TzRules

/-! The time zone: `_ltzset`, which takes it from the variable `TZ`, and `localtime`. -/

namespace Svr42.TzSet
open TimeComm TzRules

/-- `struct ttinfo`, with the abbreviation that `tt_abbrind` points at. -/
structure TtInfo where
  tt_gmtoff : Int
  tt_isdst : Bool
  tt_abbr : Str

/-- What `_tzload` leaves in `*_tz_state`, less the counts. -/
structure State where
  ats : List Int
  types : List Nat
  ttis : List TtInfo
  chars : Str

/-- `timezone`, `altzone`, `daylight`, `start_dst`, `end_dst`, and whether `_tz_state` is set. -/
structure Zone where
  timezone : Int
  altzone : Int
  daylight : Bool
  start_dst : Int
  end_dst : Int
  tz_state : Bool
deriving DecidableEq

/-- What the code finds outside: `TZ`, the files of zones, the clock, the locale, if there is memory for a name, and the values of a
number never set and of a word behind a table. -/
structure Env where
  getenv : Option Str
  tzload : Str → Option State
  time : Int
  isgraph : UInt8 → Bool
  tzcpy : Str → Bool
  unset : Int
  beyond : Int

def semicolon : UInt8 := 59

def INT_MAX : Int := 0x7fffffff

/-! ### Names and the rules without months -/

def inName (env : Env) (c : UInt8) : Bool :=
  env.isgraph c && !isdigit c && c != comma && c != minus && c != plus

/-- The text after the name of a zone. -/
def getzname (env : Env) : Str → Option Str
  | [] => none
  | c :: q =>
      if inName env c && c != colon && env.tzcpy (c :: q.takeWhile (inName env)) then
        some (q.dropWhile (inName env))
      else none

/-- A day of `getdst` with its time. -/
def dstDay (p : Str) : Option (Int × Int × Str) :=
  (getdigit p).bind fun r =>
    let lsd := long (r.2 - 1)
    if lsd < 0 ∨ lsd > 365 then none
    else if r.1.head? = some slash then
      (gettime r.1.tail false).1.map fun rest => (lsd, (gettime r.1.tail false).2, rest)
    else some (lsd, 0, r.1)

def getdst (env : Env) (z : Zone) (p : Str) : Option (Int × Int) :=
  (dstDay p).bind fun std =>
    let alt :=
      if std.2.2.head? = some comma then
        (dstDay std.2.2.tail).map fun alt => (alt.1, alt.2.1)
      else some (env.unset, 0)
    alt.map fun alt =>
      (long (std.1 * SEC_PER_DAY + std.2.1),
        long (alt.1 * SEC_PER_DAY + alt.2 - (z.timezone - z.altzone)))

/-! ### `_ltzset` -/

/-- The names of the types after the first; the loop ends early if there is no memory. -/
def typeLoop (env : Env) : List TtInfo → Zone → Zone × Bool
  | [], z => (z, true)
  | ttisp :: ttis, z =>
      if env.tzcpy ttisp.tt_abbr then
        typeLoop env ttis
          (if ttisp.tt_isdst then { z with daylight := true }
            else { z with timezone := long (-ttisp.tt_gmtoff) })
      else (z, false)

/-- The transitions up to the time `tim`, which come with the indices of their types. -/
def timeLoop (env : Env) (ttis : List TtInfo) (tim : Int) : List (Int × Nat) → Zone → Zone
  | [], z => z
  | (at_i, type) :: rest, z =>
      if at_i ≤ tim then
        match ttis[type]? with
        | none => z
        | some ttisp =>
            if env.tzcpy ttisp.tt_abbr then
              timeLoop env ttis tim rest
                (if ttisp.tt_isdst then
                  { z with
                    daylight := true
                    altzone := long (-ttisp.tt_gmtoff)
                    start_dst := at_i
                    end_dst := (rest.head?.map Prod.fst).getD INT_MAX }
                else { z with timezone := long (-ttisp.tt_gmtoff) })
            else z
      else z

/-- The zone of a file. -/
def olsonZone (env : Env) (name : Str) (tim : Int) (z : Zone) : Zone :=
  match env.tzload name with
  | none => { z with tz_state := false }
  | some s =>
      let z := { z with tz_state := true }
      if env.tzcpy s.chars then
        match s.ttis with
        | [] => z
        | tt :: ttis =>
            let r := typeLoop env ttis
              { z with timezone := long (-tt.tt_gmtoff), daylight := false }
            if r.2 then
              timeLoop env s.ttis (if tim = 0 then env.time else tim) (s.ats.zip s.types)
                { r.1 with start_dst := 0, end_dst := 0 }
            else r.1
      else z

/-- The rules of summer time, after a semicolon or a comma. -/
def rules (env : Env) (name : Str) (tim : Int) (z : Zone) : Zone :=
  let r :=
    if name.head? = some semicolon then getdst env z name.tail
    else posixgetdst env.beyond z.timezone z.altzone name.tail tim
  match r with
  | none => z
  | some (s, e) => { z with start_dst := s, end_dst := e }

/-- What `name` says of the alternate zone. -/
def alternate (env : Env) (name : Str) (tim : Int) (z : Zone) : Zone :=
  match getzname env name with
  | none => { z with altzone := z.timezone }
  | some name =>
      let z := { z with start_dst := -1, end_dst := -1, daylight := true }
      if name = [] then z
      else if name.head? = some semicolon ∨ name.head? = some comma then rules env name tim z
      else
        let r := gettime name true
        let z := { z with altzone := r.2 }
        match r.1 with
        | none => z
        | some name =>
            if name.head? = some semicolon ∨ name.head? = some comma then rules env name tim z
            else z

def posixZone (env : Env) (name : Str) (tim : Int) (z : Zone) : Zone :=
  match getzname env name with
  | none => z
  | some name =>
      let r := gettime name true
      let z := { z with timezone := r.2 }
      match r.1 with
      | none => z
      | some name =>
          alternate env name tim
            { z with
              altzone := long (z.timezone - SEC_PER_HOUR)
              start_dst := 0
              end_dst := 0
              daylight := false }

def ltzset (env : Env) (tim : Int) (z : Zone) : Zone :=
  match env.getenv with
  | none => { z with timezone := 0, altzone := 0, daylight := false }
  | some [] => { z with timezone := 0, altzone := 0, daylight := false }
  | some (c :: name) =>
      if c = colon then olsonZone env name tim z else posixZone env (c :: name) tim z

/-! ### `localtime` -/

def year_size (a : Int) : Int := if a.tmod 4 ≠ 0 then 365 else 366

def sunday (t : Tm) (d : Int) : Int :=
  let d := if d ≥ 58 then d + (year_size t.tm_year - 365) else d
  d - (d - t.tm_yday + t.tm_wday + 700).tmod 7

def daytab : List (Int × Int × Int) :=
  [(87, 96, 303), (76, 119, 303), (75, 58, 303), (74, 5, 333), (69, 119, 303), (0, 119, 303)]

def getusa (t : Tm) : Int × Int :=
  let row := ((daytab.find? fun row => decide (row.1 ≤ t.tm_year)).getD (0, 119, 303)).2
  (sunday t row.1 * SEC_PER_DAY + 2 * SEC_PER_HOUR, sunday t row.2 * SEC_PER_DAY + SEC_PER_HOUR)

def dstDays (z : Zone) (t : Tm) : Int × Int :=
  if z.start_dst = -1 ∧ z.end_dst = -1 then getusa t else (z.start_dst, z.end_dst)

def yearSecs (t : Tm) : Int :=
  t.tm_yday * SEC_PER_DAY + t.tm_hour * SEC_PER_HOUR + t.tm_min * SEC_PER_MIN + t.tm_sec

def localtime (env : Env) (timep : Int) (z : Zone) : Tm × Zone :=
  let z := ltzset env timep z
  let tmp := gmtime (long (timep - z.timezone))
  if z.daylight = false then (tmp, z)
  else
    let curr := if z.tz_state ∧ z.start_dst ≠ -1 then timep else yearSecs tmp
    let day := dstDays z tmp
    let summer :=
      if day.1 ≤ day.2 then curr ≥ day.1 ∧ curr < day.2
      else ¬ (curr ≥ day.2 ∧ curr < day.1)
    if summer then ({ gmtime (long (timep - z.altzone)) with tm_isdst := 1 }, z) else (tmp, z)

end Svr42.TzSet
