import Svr42.Mktime

/-! `mktime` in a zone without summer time: which times it finds, and that it is the inverse of `localtime`. -/

namespace Svr42.Mktime
open Int List Option
open TimeComm TzRules TzSet Calendar

def InLong (v : Int) : Prop := -0x80000000 ≤ v ∧ v ≤ 0x7fffffff

instance (v : Int) : Decidable (InLong v) := inferInstanceAs (Decidable (_ ∧ _))

def Ints (tm : Tm) : Prop :=
  InLong tm.tm_sec ∧ InLong tm.tm_min ∧ InLong tm.tm_hour ∧ InLong tm.tm_mday ∧ InLong tm.tm_mon ∧
    InLong tm.tm_year

/-! ### The time that the fields say -/

def normYear (tm : Tm) : Int := tm.tm_year + tm.tm_mon / 12

def normMonth (tm : Tm) : Nat := (tm.tm_mon % 12).toNat

def clockSecs (tm : Tm) : Int :=
  tm.tm_sec + 86400 * (tm.tm_mday - 1) + 3600 * tm.tm_hour + 60 * tm.tm_min

def exact (tm : Tm) : Int :=
  clockSecs tm +
    86400 * (daysBefore (normYear tm + 1900) + monthStart (normYear tm + 1900) (normMonth tm))

def clockTotals (tm : Tm) : List Int :=
  [tm.tm_mday - 1, 86400 * (tm.tm_mday - 1), tm.tm_sec + 86400 * (tm.tm_mday - 1),
    3600 * tm.tm_hour, tm.tm_sec + 86400 * (tm.tm_mday - 1) + 3600 * tm.tm_hour, 60 * tm.tm_min,
    clockSecs tm]

/-- The values for the years and the months. -/
def yearTotals (tm : Tm) : List Int :=
  [-tm.tm_mon, normYear tm, normYear tm - 70, 31536000 * (normYear tm - 70),
    clockSecs tm + 31536000 * (normYear tm - 70),
    clockSecs tm + 31536000 * (normYear tm - 70) +
      86400 * (leapsBefore (normYear tm + 1900) - 477),
    exact tm]

def Fits (tm : Tm) : Prop := (∀ v ∈ clockTotals tm, InLong v) ∧ ∀ v ∈ yearTotals tm, InLong v

instance (tm : Tm) : Decidable (Fits tm) := inferInstanceAs (Decidable (_ ∧ _))

/-! ### The additions -/

theorem add_eq {s a : Int} (hs : InLong s) (ha : InLong a) :
    add s a = if InLong (s + a) then some (s + a) else none := by
  rw [add, LONG_MAX, LONG_MIN]
  by_cases hin : InLong (s + a)
  · rw [if_pos hin]
    rw [InLong] at *
    split_ifs <;> first | rfl | omega
  · rw [if_neg hin]
    rw [InLong] at *
    split_ifs <;> first | rfl | omega

theorem addint_eq {s a : Int} (hs : InLong s) (ha : InLong a) :
    addint s a = if InLong (s + a) then some (s + a) else none := add_eq hs ha

theorem long_eq {v : Int} (h : InLong v) : long v = v := by
  rw [InLong] at h
  rw [long, bmod_eq_of_le_mul_two (by omega) (by omega)]

theorem inLong_long (v : Int) : InLong (long v) := by
  rw [InLong, long, bmod_def]
  split_ifs <;> omega

theorem guard_neg {v k : Int} (hv : v < -1) (hk : 0 ≤ k) : LONG_MIN.tdiv v < k ↔ ¬ InLong (v * k) := by
  obtain ⟨u, rfl⟩ : ∃ u, v = -u := ⟨-v, by omega⟩
  have hpos : 0 ≤ u * k := Int.mul_nonneg (by omega) hk
  rw [LONG_MIN, Int.tdiv_neg, Int.neg_tdiv, neg_neg, Int.tdiv_eq_ediv_of_nonneg (by decide),
    Int.ediv_lt_iff_lt_mul (by omega), Int.neg_mul, InLong, mul_comm k u]
  omega

theorem guard_pos {v k : Int} (hv : v > 1) (hk : 0 ≤ k) : LONG_MAX.tdiv v < k ↔ ¬ InLong (v * k) := by
  have hpos : 0 ≤ v * k := Int.mul_nonneg (by omega) hk
  rw [LONG_MAX, Int.tdiv_eq_ediv_of_nonneg (by decide), Int.ediv_lt_iff_lt_mul (by omega), InLong,
    mul_comm k v]
  omega

theorem multadd_eq {s v k : Int} (hs : InLong s) (hk : 0 ≤ k ∧ k ≤ 0x7fffffff) :
    multadd s v k = if InLong (k * v) ∧ InLong (s + k * v) then some (s + k * v) else none := by
  rw [mul_comm k v, multadd]
  have hrest : InLong (v * k) → add s (long (v * k)) =
      if InLong (v * k) ∧ InLong (s + v * k) then some (s + v * k) else none := by
    intro hin
    rw [long_eq hin, add_eq hs hin]
    simp only [hin, true_and]
  by_cases hneg : v < -1
  · rw [if_pos hneg]
    by_cases hin : InLong (v * k)
    · rw [if_neg fun h => (guard_neg hneg hk.1).mp h hin]
      exact hrest hin
    · rw [if_pos ((guard_neg hneg hk.1).mpr hin), if_neg fun h => hin h.1]
  rw [if_neg hneg]
  by_cases hpos : v > 1
  · rw [if_pos hpos]
    by_cases hin : InLong (v * k)
    · rw [if_neg fun h => (guard_pos hpos hk.1).mp h hin]
      exact hrest hin
    · rw [if_pos ((guard_pos hpos hk.1).mpr hin), if_neg fun h => hin h.1]
  · rw [if_neg hpos]
    apply hrest
    rw [InLong]
    rcases show v = -1 ∨ v = 0 ∨ v = 1 by omega with rfl | rfl | rfl <;> omega

/-! ### The stages -/

theorem clockTotals_iff (tm : Tm) : (∀ v ∈ clockTotals tm, InLong v) ↔ InLong (tm.tm_mday - 1) ∧
      (InLong (86400 * (tm.tm_mday - 1)) ∧ InLong (tm.tm_sec + 86400 * (tm.tm_mday - 1))) ∧
      (InLong (3600 * tm.tm_hour) ∧
        InLong (tm.tm_sec + 86400 * (tm.tm_mday - 1) + 3600 * tm.tm_hour)) ∧
      InLong (60 * tm.tm_min) ∧
        InLong (tm.tm_sec + 86400 * (tm.tm_mday - 1) + 3600 * tm.tm_hour + 60 * tm.tm_min) := by
  simp only [clockTotals, clockSecs, forall_mem_cons, not_mem_nil, false_implies,
    forall_const, and_true, and_assoc]

variable {tm : Tm}

theorem dayTime_eq (h : Ints tm) :
    dayTime tm = if ∀ v ∈ clockTotals tm, InLong v then some (clockSecs tm) else none := by
  obtain ⟨hsec, hmin, hhour, hmday, _, _⟩ := h
  simp only [clockTotals_iff]
  rw [dayTime, addint_eq hmday (by decide), ← sub_eq_add_neg]
  by_cases h1 : InLong (tm.tm_mday - 1)
  · rw [if_pos h1, bind_some, SEC_PER_DAY, multadd_eq hsec (by decide)]
    by_cases h2 : InLong (86400 * (tm.tm_mday - 1)) ∧ InLong (tm.tm_sec + 86400 * (tm.tm_mday - 1))
    · rw [if_pos h2, bind_some, SEC_PER_HOUR, multadd_eq h2.2 (by decide)]
      by_cases h3 : InLong (3600 * tm.tm_hour) ∧
          InLong (tm.tm_sec + 86400 * (tm.tm_mday - 1) + 3600 * tm.tm_hour)
      · rw [if_pos h3, bind_some, SEC_PER_MIN, multadd_eq h3.2 (by decide)]
        simp only [h1, h2, h3, true_and, and_self, clockSecs]
      · rw [if_neg h3, bind_none, if_neg fun h => h3 h.2.2.1]
    · rw [if_neg h2, bind_none, if_neg fun h => h2 h.2.1]
  · rw [if_neg h1, bind_none, if_neg fun h => h1 h.1]

theorem normMon_eq (h : Ints tm) : normMon tm = if InLong (-tm.tm_mon) ∧ InLong (normYear tm) then
        some { tm with tm_year := normYear tm, tm_mon := normMonth tm }
      else none := by
  obtain ⟨_, _, _, _, hmon, hyear⟩ := h
  have hmod := emod_nonneg tm.tm_mon (show (12 : Int) ≠ 0 by decide)
  have hmonth : ((normMonth tm : Nat) : Int) = tm.tm_mon % 12 := toNat_of_nonneg hmod
  rw [normMon, hmonth, normYear, LONG_MIN]
  rw [InLong] at hmon
  by_cases hlate : tm.tm_mon ≥ 12
  · have hneg : InLong (-tm.tm_mon) := by rw [InLong]; omega
    rw [if_pos hlate, tdiv_eq_ediv_of_nonneg (by omega), tmod_eq_emod_of_nonneg (by omega),
      addint_eq hyear (by rw [InLong]; omega)]
    simp only [hneg, true_and]
    split_ifs <;> rfl
  rw [if_neg hlate]
  by_cases hearly : tm.tm_mon < 0
  · rw [if_pos hearly]
    by_cases hmin : tm.tm_mon ≤ -0x80000000
    · have hneg : ¬ InLong (-tm.tm_mon) := by rw [InLong]; omega
      rw [if_pos hmin, if_neg fun h => hneg h.1]
    have hneg : InLong (-tm.tm_mon) := by rw [InLong]; omega
    have hdiv : (-tm.tm_mon).tdiv 12 = -tm.tm_mon / 12 := tdiv_eq_ediv_of_nonneg (by omega)
    have hrem : (-tm.tm_mon).tmod 12 = -tm.tm_mon % 12 := tmod_eq_emod_of_nonneg (by omega)
    have hyears : -(if -tm.tm_mon / 12 * 12 ≠ -tm.tm_mon then -tm.tm_mon / 12 + 1
        else -tm.tm_mon / 12) = tm.tm_mon / 12 := by
      split_ifs <;> omega
    have hmonths : (if -tm.tm_mon % 12 ≠ 0 then 12 - -tm.tm_mon % 12 else 0) = tm.tm_mon % 12 := by
      split_ifs <;> omega
    rw [if_neg hmin]
    dsimp only
    rw [hdiv, hrem, hyears, hmonths, addint_eq hyear (by rw [InLong]; omega)]
    simp only [hneg, true_and]
    split_ifs <;> rfl
  · have hneg : InLong (-tm.tm_mon) := by rw [InLong]; omega
    have hsame : tm.tm_year + tm.tm_mon / 12 = tm.tm_year := by omega
    have hmon' : tm.tm_mon % 12 = tm.tm_mon := by omega
    rw [if_neg hearly, hsame, hmon', if_pos ⟨hneg, hyear⟩]

theorem yearTime_eq (tm : Tm) {k : Nat} {secs : Int} (hk : k < 12) (hmon : tm.tm_mon = k)
    (hyear : InLong tm.tm_year) (hsecs : InLong secs) : let years := secs + 31536000 * (tm.tm_year - 70)
    let leaps := years + 86400 * (leapsBefore (tm.tm_year + 1900) - 477)
    let total := leaps + 86400 * monthStart (tm.tm_year + 1900) k
    yearTime tm secs = if InLong (tm.tm_year - 70) ∧
          (InLong (31536000 * (tm.tm_year - 70)) ∧ InLong years) ∧ InLong leaps ∧ InLong total then
        some total
      else none := by
  intro years leaps total
  rw [yearTime, addint_eq hyear (by decide), ← sub_eq_add_neg]
  by_cases h1 : InLong (tm.tm_year - 70)
  · rw [if_pos h1, bind_some, SEC_PER_YEAR, multadd_eq hsecs (by decide)]
    by_cases h2 : InLong (31536000 * (tm.tm_year - 70)) ∧ InLong years
    · have hrange := h2.1
      rw [InLong] at hrange
      have hlate : InLong (tm.tm_year + 3) := by rw [InLong]; omega
      have hleaps : (tm.tm_year + 3).tdiv 4 - 1 - LEAP_TO_70
          = leapsBefore (tm.tm_year + 1900) - 477 := by
        rw [tdiv_eq_ediv_of_nonneg (by omega), LEAP_TO_70, leapsBefore]
        omega
      have hleaps' : InLong (86400 * (leapsBefore (tm.tm_year + 1900) - 477)) := by
        rw [leapsBefore, InLong]
        omega
      have hleap : decide (tm.tm_year.tmod 4 = 0) = decide (Leap (tm.tm_year + 1900)) := by
        rw [decide_eq_decide, tmod_eq_zero_iff, Leap]
        omega
      rw [if_pos h2, bind_some, addint_eq hyear (by decide), if_pos hlate, bind_some,
        hleaps, SEC_PER_DAY, multadd_eq h2.2 (by decide), hleap, hmon, toNat_natCast,
        yday_to_month_leap hk]
      by_cases h3 : InLong leaps
      · have hmonth : InLong (86400 * monthStart (tm.tm_year + 1900) k) := by
          have hlow := monthStart_mono (tm.tm_year + 1900) (Nat.zero_le k)
          have hhigh := monthStart_mono (tm.tm_year + 1900) hk.le
          have hlen : yearLength (tm.tm_year + 1900) ≤ 366 := by rw [yearLength]; split_ifs <;> omega
          rw [monthStart_twelve] at hhigh
          rw [monthStart] at hlow
          rw [InLong]
          omega
        rw [if_pos ⟨hleaps', h3⟩, bind_some, multadd_eq h3 (by decide)]
        simp only [h1, h2, h3, hmonth, true_and, and_self]
        rfl
      · rw [if_neg fun h => h3 h.2, bind_none, if_neg fun h => h3 h.2.2.1]
    · rw [if_neg h2, bind_none, if_neg fun h => h2 h.2.1]
  · rw [if_neg h1, bind_none, if_neg fun h => h1 h.1]

theorem yearTotals_iff (tm : Tm) : (∀ v ∈ yearTotals tm, InLong v) ↔
    (InLong (-tm.tm_mon) ∧ InLong (normYear tm)) ∧ InLong (normYear tm - 70) ∧
      (InLong (31536000 * (normYear tm - 70)) ∧
        InLong (clockSecs tm + 31536000 * (normYear tm - 70))) ∧
      InLong (clockSecs tm + 31536000 * (normYear tm - 70) +
        86400 * (leapsBefore (normYear tm + 1900) - 477)) ∧ InLong (exact tm) := by
  simp only [yearTotals, forall_mem_cons, not_mem_nil, false_implies, forall_const, and_true, and_assoc]

theorem exact_eq (tm : Tm) : exact tm = clockSecs tm + 31536000 * (normYear tm - 70) +
    86400 * (leapsBefore (normYear tm + 1900) - 477) +
    86400 * monthStart (normYear tm + 1900) (normMonth tm) := by
  rw [exact, daysBefore]
  omega

theorem normMonth_lt (tm : Tm) : normMonth tm < 12 := by
  rw [normMonth]
  omega

theorem yearTime_norm (hyear : InLong (normYear tm)) (hsecs : InLong (clockSecs tm)) :
    yearTime { tm with tm_year := normYear tm, tm_mon := normMonth tm } (clockSecs tm) =
      if InLong (normYear tm - 70) ∧
          (InLong (31536000 * (normYear tm - 70)) ∧
            InLong (clockSecs tm + 31536000 * (normYear tm - 70))) ∧
          InLong (clockSecs tm + 31536000 * (normYear tm - 70) +
            86400 * (leapsBefore (normYear tm + 1900) - 477)) ∧ InLong (exact tm) then
        some (exact tm)
      else none := by
  have hyears := yearTime_eq { tm with tm_year := normYear tm, tm_mon := normMonth tm }
    (normMonth_lt tm) rfl hyear hsecs
  rw [exact_eq]
  exact hyears

/-! ### Zones of a fixed offset -/

variable {t : Int}

theorem inLong_minutes {p : Str} (ht : InLong t) : InLong (minutes p t).2 := by
  rw [minutes]
  split
  · split
    · exact ht
    · split
      · split
        · exact inLong_long _
        · exact inLong_long _
      · exact inLong_long _
  · exact ht

theorem inLong_gettime (p : Str) (f : Bool) : InLong (gettime p f).2 := by
  simp only [gettime]
  split
  · exact inLong_long _
  · split
    · decide
    · exact inLong_minutes (inLong_long _)

/-- `TZ` names a zone with the offset `off` and without summer time; `file` if it is read from a file. -/
inductive FixedZone (env : Env) : Int → Bool → Prop
  | absent (henv : env.getenv = none ∨ env.getenv = some []) : FixedZone env 0 false
  | posix {c : UInt8} {name p q : Str} {off : Int} (henv : env.getenv = some (c :: name))
      (hc : c ≠ colon) (hname : getzname env (c :: name) = some p)
      (htime : gettime p true = (some q, off)) (hend : getzname env q = none) :
      FixedZone env off false
  | file {name : Str} {s : State} {off : Int} (henv : env.getenv = some (colon :: name))
      (hload : env.tzload name = some s) (hmem : env.tzcpy s.chars = true) (hne : s.ttis ≠ [])
      (hall : ∀ tt ∈ s.ttis, env.tzcpy tt.tt_abbr = true ∧ tt.tt_isdst = false ∧
        long (-tt.tt_gmtoff) = off) : FixedZone env off true

def At (off : Int) (z : Zone) : Prop := z.timezone = off ∧ z.daylight = false

variable {env : Env} {off : Int} {ttis : List TtInfo}

section

variable
  (h : ∀ tt ∈ ttis, env.tzcpy tt.tt_abbr = true ∧ tt.tt_isdst = false ∧ long (-tt.tt_gmtoff) = off)
include h

theorem typeLoop_at : ∀ {z : Zone}, At off z →
    (typeLoop env ttis z).2 = true ∧ At off (typeLoop env ttis z).1 := by
  induction ttis with
  | nil => exact fun hz => ⟨rfl, hz⟩
  | cons tt ttis ih =>
    intro z hz
    obtain ⟨hmem, hdst, hoff⟩ := h tt (.head _)
    rw [typeLoop, if_pos hmem, hdst, if_neg (by decide)]
    exact ih (fun tt' htt => h tt' (.tail tt htt)) ⟨hoff, hz.2⟩

theorem timeLoop_at {tim : Int} (times : List (Int × Nat)) : ∀ {z : Zone}, At off z →
    At off (timeLoop env ttis tim times z) := by
  induction times with
  | nil => exact fun hz => hz
  | cons time times ih =>
    intro z hz
    rw [timeLoop]
    split
    · split
      · exact hz
      · rename_i tt hget
        obtain ⟨hmem, hdst, hoff⟩ := h tt (mem_of_getElem? hget)
        rw [if_pos hmem, hdst, if_neg (by decide)]
        exact ih ⟨hoff, hz.2⟩
    · exact hz

end

variable {file : Bool}

section

variable (h : FixedZone env off file)
include h

/-- `_ltzset` finds the zone, whatever it was before. -/
theorem ltzset_fixed (tim : Int) (z : Zone) :
    At off (ltzset env tim z) ∧ (file = false → (ltzset env tim z).altzone = off) := by
  cases h with
  | absent henv =>
    rcases henv with henv | henv
    · rw [ltzset, henv]
      exact ⟨⟨rfl, rfl⟩, fun _ => rfl⟩
    · rw [ltzset, henv]
      exact ⟨⟨rfl, rfl⟩, fun _ => rfl⟩
  | posix henv hc hname htime hend =>
    rw [ltzset, henv]
    dsimp only
    rw [if_neg hc, posixZone, hname]
    dsimp only
    rw [htime]
    dsimp only
    rw [alternate, hend]
    exact ⟨⟨rfl, rfl⟩, fun _ => rfl⟩
  | file henv hload hmem hne hall =>
    rename_i name s
    obtain ⟨tt, ttis, hcons⟩ := exists_cons_of_ne_nil hne
    rw [hcons] at hall
    obtain ⟨_, _, hoff⟩ := hall tt (.head _)
    rw [ltzset, henv]
    dsimp only
    rw [if_pos rfl, olsonZone, hload]
    dsimp only
    rw [if_pos hmem, hcons]
    dsimp only
    obtain ⟨hdone, hat⟩ := typeLoop_at (fun tt' htt => hall tt' (.tail tt htt))
      (z := { z with tz_state := true, timezone := long (-tt.tt_gmtoff), daylight := false })
      ⟨hoff, rfl⟩
    rw [if_pos hdone]
    exact ⟨timeLoop_at hall _ ⟨hat.1, hat.2⟩, fun hfile => absurd hfile (by decide)⟩

theorem FixedZone.inLong : InLong off := by
  cases h with
  | absent _ => decide
  | posix _ _ _ htime _ =>
    have hrange := congrArg (fun r => InLong r.2) htime
    exact hrange.mp (inLong_gettime _ true)
  | file _ _ _ hne hall =>
    obtain ⟨tt, ttis, hcons⟩ := exists_cons_of_ne_nil hne
    rw [hcons] at hall
    rw [← (hall tt (.head _)).2.2]
    exact inLong_long _

theorem localtime_fixed (t : Int) (z : Zone) :
    localtime env t z = (gmtime (long (t - off)), ltzset env t z) := by
  obtain ⟨⟨hoff, hday⟩, _⟩ := ltzset_fixed h t z
  rw [localtime, if_pos hday, hoff]

end

/-! ### The result -/

theorem mktime_large (htm : Ints tm) (hfits : ¬ Fits tm) (z : Zone) : (mktime env tm z).1 = -1 := by
  rw [mktime, dayTime_eq htm]
  by_cases hclock : ∀ v ∈ clockTotals tm, InLong v
  · rw [if_pos hclock, normMon_eq htm]
    have hyears : ¬ ∀ v ∈ yearTotals tm, InLong v := fun h => hfits ⟨hclock, h⟩
    rw [yearTotals_iff] at hyears
    by_cases hmon : InLong (-tm.tm_mon) ∧ InLong (normYear tm)
    · have hsecs := ((clockTotals_iff tm).mp hclock).2.2.2.2
      rw [if_pos hmon]
      dsimp only
      rw [yearTime_norm hmon.2 hsecs, if_neg fun h => hyears ⟨hmon, h⟩]
    · rw [if_neg hmon]
  · rw [if_neg hclock]

/-- The time is found, and the offset is added. -/
theorem mktime_fits (hzone : FixedZone env off file) (htm : Ints tm)
    (hdst : file = true → tm.tm_isdst = 0) (hfits : Fits tm) (z : Zone) :
    (InLong (exact tm + off) ∧ 0 ≤ exact tm + off →
      mktime env tm z = finish env tm.tm_isdst (exact tm + off) (ltzset env (exact tm) z)) ∧
    (¬ (InLong (exact tm + off) ∧ 0 ≤ exact tm + off) → (mktime env tm z).1 = -1) := by
  obtain ⟨hclock, hyears⟩ := hfits
  have hsecs := ((clockTotals_iff tm).mp hclock).2.2.2.2
  obtain ⟨hmon, hrest⟩ := (yearTotals_iff tm).mp hyears
  obtain ⟨⟨hoff, _⟩, halt⟩ := ltzset_fixed hzone (exact tm) z
  have hzoff : (if tm.tm_isdst > 0 then (ltzset env (exact tm) z).altzone
      else (ltzset env (exact tm) z).timezone) = off := by
    split_ifs with hpos
    · apply halt
      cases file with
      | false => rfl
      | true => exact absurd (hdst rfl) (by omega)
    · exact hoff
  rw [mktime, dayTime_eq htm, if_pos hclock]
  rw [normMon_eq htm, if_pos hmon]
  dsimp only
  rw [yearTime_norm hmon.2 hsecs, if_pos hrest]
  dsimp only
  rw [hzoff, add_eq hrest.2.2.2 hzone.inLong]
  split_ifs with hin
  · dsimp only
    split_ifs with hneg
    · exact ⟨fun h => absurd h.2 (by omega), fun _ => rfl⟩
    · exact ⟨fun _ => rfl, fun h => absurd ⟨hin, by omega⟩ h⟩
  · exact ⟨fun h => absurd h.1 hin, fun _ => rfl⟩

theorem finish_fixed {secs isdst : Int} (hzone : FixedZone env off file) (hdst : file = true → isdst = 0)
    (hsecs : 0 ≤ secs) (hlong : InLong secs) (z : Zone) :
    (finish env isdst secs z).1 = secs ∧ (finish env isdst secs z).2.1 = gmtime (long (secs - off)) := by
  have hnonneg : ¬ secs < 0 := by omega
  rw [finish, localtime_fixed hzone]
  dsimp only
  obtain ⟨⟨hoff, _⟩, halt⟩ := ltzset_fixed hzone secs z
  refine iteInduction
    (motive := fun r : Int × Tm × Zone => r.1 = secs ∧ r.2.1 = gmtime (long (secs - off)))
    (fun hsummer => ?_) fun _ => ⟨if_neg hnonneg, rfl⟩
  have hsame : (ltzset env secs z).timezone - (ltzset env secs z).altzone = 0 := by
    rw [hoff, halt]
    · exact sub_self off
    · cases file with
      | false => rfl
      | true => exact absurd (hdst rfl) (by have hneg := hsummer.1; omega)
  rw [hsame, sub_zero, long_eq hlong, if_neg hnonneg, localtime_fixed hzone]
  exact ⟨rfl, rfl⟩

theorem exact_shows (h : Shows tm t) : exact tm = t := by
  have hmon := h.mon
  have hyear : normYear tm + 1900 = tm.year := by
    rw [normYear, Tm.year, TM_YEAR_BASE]
    omega
  have hmonth : normMonth tm = tm.tm_mon.toNat := by
    rw [normMonth]
    omega
  have htime := h.time
  have hyday := h.yday
  rw [exact, clockSecs, hyear, hmonth, htime, Tm.day]
  omega

/-- Times from 1902 on have no value on the way that is too large. -/
theorem fits_shows (h : Shows tm t) (ht : -2145916800 ≤ t) (ht' : t < 0x80000000) :
    Ints tm ∧ Fits tm := by
  have hsec := h.sec
  have hmin := h.min
  have hhour := h.hour
  have hmon := h.mon
  have hmday := h.mday
  have hlen := (monthLength_bounds tm.year (show tm.tm_mon.toNat < 12 by omega)).2
  have hstart := monthStart_mono tm.year (Nat.zero_le tm.tm_mon.toNat)
  have hyday := h.yday_bounds
  have htime := h.time
  have hexact := exact_shows h
  have hyear : normYear tm + 1900 = tm.year := by
    rw [normYear, Tm.year, TM_YEAR_BASE]
    omega
  have hmonth : normMonth tm = tm.tm_mon.toNat := by
    rw [normMonth]
    omega
  have hlow : 1902 ≤ tm.year := by
    by_contra hlow
    have hle := daysBefore_lt (show tm.year < 1902 by omega)
    rw [show daysBefore 1902 = -24837 by decide] at hle
    rw [Tm.day] at htime
    omega
  have hhigh : tm.year ≤ 2038 := by
    by_contra hhigh
    have hle := daysBefore_lt (show 2038 < tm.year by omega)
    rw [show daysBefore 2038 + yearLength 2038 = 25202 by decide] at hle
    rw [Tm.day] at htime
    omega
  have hleaps := exact_eq tm
  rw [monthStart] at hstart
  rw [hyear, hmonth, hexact] at hleaps
  have htm : tm.tm_year = tm.year - 1900 := by
    rw [Tm.year, TM_YEAR_BASE]
    omega
  have hnorm : normYear tm = tm.year - 1900 := by omega
  have hleap : -17 ≤ leapsBefore tm.year - 477 ∧ leapsBefore tm.year - 477 ≤ 17 := by
    rw [leapsBefore]
    omega
  refine ⟨?_, (clockTotals_iff tm).mpr ?_, (yearTotals_iff tm).mpr ?_⟩
  · simp only [Ints, InLong]
    omega
  · simp only [InLong]
    omega
  · rw [hyear, hexact, hnorm]
    rw [hnorm] at hleaps
    simp only [InLong]
    rw [clockSecs] at *
    omega

/-- In a zone of a fixed offset `mktime` finds the time that the fields say, if it is not before 1970 and nothing on the way to it
is too large. It is the inverse of `localtime`. -/
theorem mktime_exact {env : Env} {off : Int} {file : Bool} (hzone : FixedZone env off file) (z : Zone) :
    (∀ tm, Ints tm → (file = true → tm.tm_isdst = 0) →
      if Fits tm ∧ InLong (exact tm + off) ∧ 0 ≤ exact tm + off then
        (mktime env tm z).1 = exact tm + off ∧ Shows (mktime env tm z).2.1 (exact tm) ∧
          (mktime env tm z).2.1.tm_isdst = 0
      else (mktime env tm z).1 = -1) ∧
    ∀ t, 0 ≤ t → t < 0x80000000 → -2145916800 ≤ t - off → t - off < 0x80000000 → ∀ z',
      (mktime env (localtime env t z').1 z).1 = t := by
  have hforward : ∀ tm, Ints tm → (file = true → tm.tm_isdst = 0) →
      if Fits tm ∧ InLong (exact tm + off) ∧ 0 ≤ exact tm + off then
        (mktime env tm z).1 = exact tm + off ∧ Shows (mktime env tm z).2.1 (exact tm) ∧
          (mktime env tm z).2.1.tm_isdst = 0
      else (mktime env tm z).1 = -1 := by
    intro tm htm hdst
    by_cases hfits : Fits tm
    · obtain ⟨hfound, hlost⟩ := mktime_fits hzone htm hdst hfits z
      by_cases hin : InLong (exact tm + off) ∧ 0 ≤ exact tm + off
      · have hexact : InLong (exact tm) := ((yearTotals_iff tm).mp hfits.2).2.2.2.2
        obtain ⟨htime, hfields⟩ := finish_fixed hzone hdst hin.2 hin.1 (ltzset env (exact tm) z)
        rw [if_pos ⟨hfits, hin⟩, hfound hin, htime, hfields, add_sub_cancel_right, long_eq hexact]
        exact ⟨rfl, gmtime_shows (exact tm), rfl⟩
      · rw [if_neg fun h => hin h.2]
        exact hlost hin
    · rw [if_neg fun h => hfits h.1]
      exact mktime_large htm hfits z
  refine ⟨hforward, ?_⟩
  intro t hpos hlt hlow hhigh z'
  have hlong : long (t - off) = t - off := long_eq (by rw [InLong]; omega)
  rw [localtime_fixed hzone, hlong]
  have hshows := gmtime_shows (t - off)
  obtain ⟨htm, hfits⟩ := fits_shows hshows hlow hhigh
  have hresult := hforward (gmtime (t - off)) htm fun _ => rfl
  rw [exact_shows hshows, sub_add_cancel, if_pos ⟨hfits, by rw [InLong]; omega, hpos⟩] at hresult
  exact hresult.1

/-- No `TZ`. -/
def gmt : Env where
  getenv := none
  tzload := fun _ => none
  time := 0
  isgraph := fun c => decide (33 ≤ c.toNat ∧ c.toNat ≤ 126)
  tzcpy := fun _ => true
  unset := 0
  beyond := 365

/-- `TZ` names a file of which all times are five hours behind. -/
def eastern : Env :=
  { gmt with
    getenv := some [colon, 69]
    tzload := fun _ => some ⟨[], [], [⟨-18000, false, [69, 83, 84]⟩], [69, 83, 84]⟩ }

def initial : Zone := ⟨0, 0, false, -1, -1, false⟩

theorem mktime_exact_day : (mktime gmt (localtime gmt 86400 initial).1 initial).1 = 86400 :=
  (mktime_exact (FixedZone.absent (.inl rfl)) initial).2 86400 (by decide) (by decide)
    (by decide) (by decide) initial

/-- Two seconds before 1970; a day of the month far off in 1930; and in a zone from a file, if it is left open whether it is summer time,
an hour past midnight at the start of 1990. -/
theorem mktime_misses : (exact ⟨58, 59, 23, 31, 11, 69, 0, 0, 0⟩ = -2 ∧
      (mktime gmt ⟨58, 59, 23, 31, 11, 69, 0, 0, 0⟩ initial).1 = -1) ∧
    (exact ⟨0, 0, 0, 30000, 0, 30, 0, 0, 0⟩ = 1329609600 ∧
      (mktime gmt ⟨0, 0, 0, 30000, 0, 30, 0, 0, 0⟩ initial).1 = -1) ∧
    FixedZone eastern 18000 true ∧ exact ⟨0, 0, 1, 1, 0, 90, 0, 0, -1⟩ + 18000 = 631173600 ∧
      (mktime eastern ⟨0, 0, 1, 1, 0, 90, 0, 0, -1⟩ initial).1 = 631155600 := by
  refine ⟨⟨by decide +kernel, by decide +kernel⟩, ⟨by decide +kernel, by decide +kernel⟩, ?_,
    by decide +kernel, by decide +kernel⟩
  refine FixedZone.file rfl rfl rfl (by simp) ?_
  intro tt htt
  rw [mem_singleton] at htt
  rw [htt]
  decide

/-! ### Its own result -/

theorem Fits.exact (h : Fits tm) : InLong (exact tm) := ((yearTotals_iff tm).mp h.2).2.2.2.2

section

variable (hzone : FixedZone env off file) (htm : Ints tm) (hdst : file = true → tm.tm_isdst = 0)
include hzone htm hdst

end

end Svr42.Mktime
