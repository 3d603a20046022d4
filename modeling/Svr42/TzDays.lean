import Svr42.TzRules

/-! The days of summer time: what the rules prescribe for a year, and for which years and rules `posixgetdst` finds these days. -/

namespace Svr42.TzRules
open Calendar Int List TimeComm

/-! ### What the rules prescribe -/

/-- The day of the month, from one on, that is the first of the day of the week `d` in month `m`. -/
def firstOf (y m d : Int) : Int :=
  1 + (d - weekday (daysBefore y + monthStart y (m - 1).toNat)) % 7

/-- The rule prescribes the day of the year `day`, counted from zero, for the year `y`. -/
def Denotes (y day : Int) : PosixRule → Prop
  -- 29 February does not count
  | .J n => ¬ (Leap y ∧ day = 59) ∧ n - 1 = if Leap y ∧ 59 < day then day - 1 else day
  | .day n => day = n
  | .M m n d =>
      let start := monthStart y (m - 1).toNat
      let stop := start + monthLength y (m - 1).toNat
      start ≤ day ∧ day < stop ∧ weekday (daysBefore y + day) = d ∧
        if n = 5 then stop ≤ day + 7 else (day - start) / 7 = n - 1

def prescribed (y m n d : Int) : Int :=
  if n = 5 ∧ firstOf y m d + 28 > monthLength y (m - 1).toNat then firstOf y m d + 21
  else firstOf y m d + 7 * (n - 1)

/-- Two thousand was a leap year, but a hundred years after 1900 are none: from March on the code's months start a day early. -/
def shift (y m : Int) : Int := if y = 2000 ∧ 3 ≤ m then 1 else 0

/-- The rules and years for which the code finds the day. -/
def Right (beyond y : Int) : PosixRule → Prop
  | .J n => y = 2000 → n ≤ 59
  | .day _ => True
  | .M m n d =>
      let target := prescribed y m n d + shift y m
      -- the entry of the month after
      let last := lengthAt beyond (decide (Leap y ∧ y ≠ 2000)) m.toNat
      (target ≤ 7 ∨ target ≤ last) ∧ target ≤ 7 * n ∧ (7 * (n - 1) < target ∨ last < target + 7)

def StartsOn (y : Int) (r : PosixRule) (st s : Int) : Prop :=
  ∃ day, Denotes y day r ∧ s = long (day * SEC_PER_DAY + st)

/-- Summer time ends on the prescribed day at the time `et`, of which `saving` is taken off. -/
def EndsOn (y : Int) (r : PosixRule) (et saving e : Int) : Prop :=
  ∃ day, Denotes y day r ∧ e = long (day * SEC_PER_DAY + et - saving)

theorem firstOf_bounds (y m d : Int) : 1 ≤ firstOf y m d ∧ firstOf y m d ≤ 7 := by
  rw [firstOf]
  omega

variable {y m n d : Int}

theorem denotes_month (hm : 1 ≤ m ∧ m ≤ 12) (hn : 1 ≤ n ∧ n ≤ 5) (hd : 0 ≤ d ∧ d ≤ 6) (day : Int) :
    Denotes y day (.M m n d) ↔ day = monthStart y (m - 1).toNat + prescribed y m n d - 1 := by
  have hlen := monthLength_bounds y (show (m - 1).toNat < 12 by omega)
  have hfirst : firstOf y m d = 1 + (d - weekday (daysBefore y + monthStart y (m - 1).toNat)) % 7 := rfl
  have hadd := weekday_add (daysBefore y + monthStart y (m - 1).toNat) (day - monthStart y (m - 1).toNat)
  rw [show daysBefore y + monthStart y (m - 1).toNat + (day - monthStart y (m - 1).toNat)
    = daysBefore y + day by omega] at hadd
  simp only [Denotes, prescribed]
  rw [hadd]
  generalize firstOf y m d = first at *
  generalize weekday (daysBefore y + monthStart y (m - 1).toNat) = w at *
  generalize monthStart y (m - 1).toNat = start at *
  generalize monthLength y (m - 1).toNat = len at *
  by_cases h5 : n = 5
  · rw [if_pos h5]
    by_cases hlast : first + 28 > len
    · rw [if_pos ⟨h5, hlast⟩]
      omega
    · rw [if_neg fun h => hlast h.2]
      omega
  · rw [if_neg h5, if_neg fun h => h5 h.1]
    omega

/-! ### What the code finds -/

variable {tm : Tm} {t : Int}

theorem year_bounds (h : Shows tm t) (ht : -0x80000000 ≤ t ∧ t < 0x80000000) :
    1901 ≤ tm.year ∧ tm.year ≤ 2038 := by
  have hyday := h.yday_bounds
  have htime := h.time
  have hsec := h.sec
  have hmin := h.min
  have hhour := h.hour
  rw [Tm.day] at htime
  constructor
  · by_contra hlow
    have hle := daysBefore_lt (show tm.year < 1901 by omega)
    rw [show daysBefore 1901 = -25202 by decide] at hle
    omega
  · by_contra hhigh
    have hle := daysBefore_lt (show 2038 < tm.year by omega)
    rw [show daysBefore 2038 + yearLength 2038 = 25202 by decide] at hle
    omega

theorem isleap_tm_year (h : 1901 ≤ tm.year ∧ tm.year ≤ 2038) :
    isleap tm.tm_year = decide (Leap tm.year ∧ tm.year ≠ 2000) := by
  rw [Bool.eq_iff_iff, isleap_iff, decide_eq_true_iff]
  rw [Tm.year, TM_YEAR_BASE] at *
  rw [Leap, Leap]
  omega

theorem yday_to_month_eq {k : Nat} (hk : k < 12) : (yday_to_month (decide (Leap y ∧ y ≠ 2000))).getD k 0
      = monthStart y k - if y = 2000 ∧ 2 ≤ k then 1 else 0 := by
  by_cases h2000 : y = 2000
  · subst h2000
    interval_cases k <;> decide
  · simp only [ne_eq, h2000, not_false_eq_true, and_true, false_and, if_false, sub_zero]
    exact yday_to_month_leap hk

theorem firstLoop_eq {stdd : Int} (hd : 0 ≤ stdd ∧ stdd < 7) (fuel : Nat) :
    ∀ {d wd : Int}, 0 ≤ wd ∧ wd < 7 → (stdd - wd) % 7 ≤ fuel →
      firstLoop stdd fuel d wd = d + (stdd - wd) % 7 := by
  induction fuel with
  | zero =>
    intro d wd _ hfuel
    rw [firstLoop]
    omega
  | succ fuel ih =>
    intro d wd hwd hfuel
    rw [firstLoop, DAYS_PER_WEEK, tmod_eq_emod_of_nonneg (by omega)]
    by_cases heq : wd = stdd
    · rw [if_neg (not_not.mpr heq)]
      omega
    · rw [if_pos heq, ih (by omega) (by omega)]
      omega

/-- The loop adds weeks as long as `stdn` asks for them and the length of the month allows. -/
theorem weekLoop_spec (stdn len : Int) (fuel : Nat) : ∀ {w d : Int}, w ≤ stdn → stdn - w ≤ fuel →
    ∃ a, 0 ≤ a ∧ a ≤ stdn - w ∧ (a = 0 ∨ d + 7 * a ≤ len) ∧
      (a = stdn - w ∨ len < d + 7 * a + 7) ∧ weekLoop stdn len fuel w d = d + 7 * a := by
  induction fuel with
  | zero =>
    intro w d hw hfuel
    exact ⟨0, by omega, by omega, .inl rfl, .inl (by omega), by rw [weekLoop]; omega⟩
  | succ fuel ih =>
    intro w d hw hfuel
    rw [weekLoop, DAYS_PER_WEEK]
    by_cases heq : w = stdn
    · rw [if_neg (not_not.mpr heq)]
      exact ⟨0, by omega, by omega, .inl rfl, .inl (by omega), by omega⟩
    rw [if_pos heq]
    split_ifs with hlen
    · exact ⟨0, by omega, by omega, .inl rfl, .inr (by omega), by omega⟩
    · obtain ⟨a, ha, hle, hin, hout, hloop⟩ := ih (w := w + 1) (d := d + 7) (by omega) (by omega)
      exact ⟨a + 1, by omega, by omega, .inr (by omega), by omega, by rw [hloop]; omega⟩

theorem wd_jan01_eq (h : Shows tm t) : (if tm.tm_wday - tm.tm_yday.tmod DAYS_PER_WEEK < 0 then
        tm.tm_wday - tm.tm_yday.tmod DAYS_PER_WEEK + DAYS_PER_WEEK
      else tm.tm_wday - tm.tm_yday.tmod DAYS_PER_WEEK) = weekday (daysBefore tm.year) := by
  have hyday := h.yday_bounds.1
  rw [DAYS_PER_WEEK, tmod_eq_emod_of_nonneg hyday, h.wday, Tm.day, weekday, weekday]
  split_ifs <;> omega

theorem shift_le (y m : Int) :
    0 ≤ shift y m ∧ shift y m ≤ 1 ∧ shift y m ≤ monthStart y (m - 1).toNat := by
  rw [shift]
  split_ifs with hlate
  · have hmono := monthStart_mono y (show 1 ≤ (m - 1).toNat by omega)
    have hjan := (monthLength_bounds y (show 0 < 12 by decide)).1
    rw [monthStart, monthStart] at hmono
    omega
  · have hmono := monthStart_mono y (Nat.zero_le (m - 1).toNat)
    rw [monthStart] at hmono
    omega

theorem firstLoop_month (m : Int) (hd : 0 ≤ d ∧ d ≤ 6) : ∃ b : Int, firstLoop d 7 1
        ((weekday (daysBefore y) + (monthStart y (m - 1).toNat - shift y m)).tmod DAYS_PER_WEEK)
      = firstOf y m d + shift y m - 7 * b ∧
      1 ≤ firstOf y m d + shift y m - 7 * b ∧ firstOf y m d + shift y m - 7 * b ≤ 7 := by
  have hshift := shift_le y m
  have hwd : 0 ≤ weekday (daysBefore y) ∧ weekday (daysBefore y) < 7 := by
    rw [weekday]
    omega
  rw [DAYS_PER_WEEK, tmod_eq_emod_of_nonneg (by omega), firstLoop_eq (by omega) 7 (by omega)
    (by omega), firstOf, weekday_add]
  generalize weekday (daysBefore y) = w at *
  generalize monthStart y (m - 1).toNat = start at *
  generalize shift y m = s at *
  exact ⟨(1 + (d - (w + start) % 7) % 7 + s - (1 + (d - (w + (start - s)) % 7) % 7)) / 7,
    by omega, by omega, by omega⟩

/-- The day the code finds for a rule `Mm.n.d`: the first of its day of the week, and weeks after it. -/
theorem julianDay_month (beyond : Int) (h : Shows tm t) (hy : 1901 ≤ tm.year ∧ tm.year ≤ 2038)
    (hm : 1 ≤ m ∧ m ≤ 12) (hn : 1 ≤ n ∧ n ≤ 5) (hd : 0 ≤ d ∧ d ≤ 6) :
    ∃ a b : Int, let first := firstOf tm.year m d + shift tm.year m - 7 * b
      let last := lengthAt beyond (decide (Leap tm.year ∧ tm.year ≠ 2000)) m.toNat
      julianDay beyond tm (.M m n d)
          = monthStart tm.year (m - 1).toNat - shift tm.year m + (first + 7 * a) - 1 ∧
        (1 ≤ first ∧ first ≤ 7) ∧ (0 ≤ a ∧ a ≤ n - 1) ∧ (a = 0 ∨ first + 7 * a ≤ last) ∧
        (a = n - 1 ∨ last < first + 7 * a + 7) := by
  have hk : (m - 1).toNat < 12 := by omega
  have hshift : (if tm.year = 2000 ∧ 2 ≤ (m - 1).toNat then (1 : Int) else 0) = shift tm.year m := by
    have hiff : 2 ≤ (m - 1).toNat ↔ 3 ≤ m := by omega
    simp only [shift, hiff]
  simp only [julianDay]
  rw [isleap_tm_year hy, wd_jan01_eq h, yday_to_month_eq hk, hshift]
  obtain ⟨b, hloop, hfirst⟩ := firstLoop_month (y := tm.year) m hd
  rw [hloop]
  obtain ⟨a, ha, hle, hin, hout, hweek⟩ := weekLoop_spec n
    (lengthAt beyond (decide (Leap tm.year ∧ tm.year ≠ 2000)) m.toNat) 5 (w := 1)
    (d := firstOf tm.year m d + shift tm.year m - 7 * b) hn.1 (by omega)
  exact ⟨a, b, by rw [hweek], hfirst, ⟨ha, hle⟩, hin, hout⟩

variable {r : PosixRule} {w : Str}

/-- The day the code finds is the prescribed one just for the right rules. -/
theorem julianDay_denotes {beyond : Int} (h : Shows tm t) (hy : 1901 ≤ tm.year ∧ tm.year ≤ 2038)
    (hr : RuleText r w) : Denotes tm.year (julianDay beyond tm r.stored) r ↔ Right beyond tm.year r := by
  have hleap := isleap_tm_year hy
  cases hr with
  | J _ h1 h2 =>
    rename_i n w hn
    simp only [PosixRule.stored, julianDay, Denotes, Right, hleap, decide_eq_true_eq, FEB28]
    by_cases hlate : n - 1 > 58
    · by_cases h2000 : tm.year = 2000
      · have hleap2000 : Leap 2000 := by decide
        rw [if_neg fun h => h.1.2 h2000]
        simp only [hleap2000, h2000, true_and, true_implies]
        split_ifs <;> omega
      · by_cases hleap' : Leap tm.year
        · rw [if_pos ⟨⟨hleap', h2000⟩, hlate⟩, if_pos ⟨hleap', by omega⟩]
          omega
        · rw [if_neg fun h => hleap' h.1.1, if_neg fun h => hleap' h.1]
          simp only [hleap', h2000, false_and, not_false_eq_true, true_and, false_implies]
    · rw [if_neg fun h => hlate h.2, if_neg fun h => absurd h.2 (by omega)]
      omega
  | day _ _ _ => simp only [PosixRule.stored, julianDay, Denotes, Right]
  | M _ _ _ hm hn hd =>
    rename_i m n d wm wn wd _ _ _
    rw [denotes_month hm hn hd]
    have hfirst := firstOf_bounds tm.year m d
    obtain ⟨a, b, hday, hone, ha, hin, hout⟩ := julianDay_month beyond h hy hm hn hd
    rw [PosixRule.stored, hday, prescribed]
    simp only [Right, prescribed]
    have hshift := shift_le tm.year m
    generalize lengthAt beyond _ m.toNat = last at *
    generalize firstOf tm.year m d = first at *
    generalize shift tm.year m = s at *
    split_ifs <;> omega

/-! ### The days of `posixgetdst` -/

theorem long_bounds (v : Int) : -0x80000000 ≤ long v ∧ long v < 0x80000000 := by
  rw [long, bmod_def]
  split_ifs <;> omega

theorem long_day {a b x : Int} (ha : -1 ≤ a ∧ a < 400) (hb : -1 ≤ b ∧ b < 400)
    (h : long (a * SEC_PER_DAY + x) = long (b * SEC_PER_DAY + x)) : a = b := by
  have hmod := congrArg (· % ((0x100000000 : Nat) : Int)) h
  simp only [long, bmod_emod] at hmod
  have hdvd := dvd_of_emod_eq_zero (emod_eq_emod_iff_emod_sub_eq_zero.mp hmod)
  rw [add_sub_add_right_eq_sub, SEC_PER_DAY] at hdvd
  have hzero := eq_zero_of_dvd_of_natAbs_lt_natAbs hdvd (by clear h hmod hdvd; omega)
  exact Int.eq_of_mul_eq_mul_right (by decide) (sub_eq_zero.mp hzero)

theorem denotes_bounds {day : Int} (hr : RuleText r w) (h : Denotes y day r) : -1 ≤ day ∧ day < 400 := by
  cases hr with
  | J _ h1 h2 =>
    have heq := h.2
    split_ifs at heq <;> omega
  | day _ h1 h2 =>
    have heq : day = _ := h
    omega
  | M _ _ _ hm hn hd =>
    rename_i m n d _ _ _ _ _ _
    have hstart := monthStart_mono y (Nat.zero_le (m - 1).toNat)
    have hlt := monthStart_lt_year y (k := (m - 1).toNat) (by omega)
      (d := day - monthStart y (m - 1).toNat) (by have h1 := h.2.1; omega)
    have hlow := h.1
    have hyear : yearLength y ≤ 366 := by rw [yearLength]; split_ifs <;> omega
    rw [monthStart] at hstart
    omega

theorem julianDay_bounds (beyond : Int) (h : Shows tm t) (hy : 1901 ≤ tm.year ∧ tm.year ≤ 2038)
    (hr : RuleText r w) : -1 ≤ julianDay beyond tm r.stored ∧ julianDay beyond tm r.stored < 400 := by
  cases hr with
  | J _ h1 h2 =>
    simp only [PosixRule.stored, julianDay]
    split_ifs <;> omega
  | day _ h1 h2 =>
    simp only [PosixRule.stored, julianDay]
    omega
  | M _ _ _ hm hn hd =>
    rename_i m n d _ _ _ _ _ _
    obtain ⟨a, b, hday, hone, ha, _, _⟩ := julianDay_month beyond h hy hm hn hd
    rw [PosixRule.stored, hday]
    have hshift := shift_le tm.year m
    have hlen := monthLength_bounds tm.year (show (m - 1).toNat < 12 by omega)
    have hlt := monthStart_lt_year tm.year (show (m - 1).toNat < 12 by omega)
      (d := 0) (by omega)
    have hyear : yearLength tm.year ≤ 366 := by rw [yearLength]; split_ifs <;> omega
    omega

/-- The times of `posixgetdst` are those of the prescribed days just when both rules are right for the year that is used. -/
theorem posixgetdst_denotes (beyond timezone altzone tim : Int) {r r' : PosixRule} {w w' q q' rest : Str}
    {st et : Int} (hr : RuleText r w) (hq : TimeText q st (comma :: (w' ++ q'))) (hr' : RuleText r' w')
    (hq' : TimeText q' et rest) :
    let y := (gmtime (passTime beyond timezone altzone tim r.stored r'.stored)).year
    (∃ s e, posixgetdst beyond timezone altzone (w ++ q) tim = some (s, e) ∧
      StartsOn y r st s ∧ EndsOn y r' et (timezone - altzone) e) ↔
      Right beyond y r ∧ Right beyond y r' := by
  intro y
  have hshows := gmtime_shows (passTime beyond timezone altzone tim r.stored r'.stored)
  have hpass : -0x80000000 ≤ passTime beyond timezone altzone tim r.stored r'.stored ∧
      passTime beyond timezone altzone tim r.stored r'.stored < 0x80000000 := by
    rw [passTime]
    split_ifs
    · exact long_bounds _
    · exact long_bounds _
  have hy := year_bounds hshows hpass
  have hjr := julianDay_bounds beyond hshows hy hr
  have hjr' := julianDay_bounds beyond hshows hy hr'
  rw [posixgetdst, posixrules_text hr hq hr' hq', Option.map_some,
    ← julianDay_denotes hshows hy hr, ← julianDay_denotes hshows hy hr']
  constructor
  · rintro ⟨s, e, heq, ⟨day, hday, hs⟩, day', hday', he⟩
    rw [Option.some.injEq, Prod.mk.injEq] at heq
    obtain ⟨hs', he'⟩ := heq
    have hstart := long_day hjr (denotes_bounds hr hday) (hs'.trans hs)
    rw [he, add_sub_assoc, add_sub_assoc] at he'
    have hend := long_day hjr' (denotes_bounds hr' hday') he'
    rw [hstart, hend]
    exact ⟨hday, hday'⟩
  · rintro ⟨hday, hday'⟩
    exact ⟨_, _, rfl, ⟨_, hday, rfl⟩, _, hday', rfl⟩

/-- `M3.5.0,J300` in the year 1995. -/
theorem posixgetdst_denotes_spring :
    let y := (gmtime (passTime 365 (-3600) (-7200) 800000000 (PosixRule.stored (.M 3 5 0))
      (PosixRule.stored (.J 300)))).year
    y = 1995 ∧ ((∃ s e, posixgetdst 365 (-3600) (-7200)
          ([77, 51, 46, 53, 46, 48] ++ comma :: ([74, 51, 48, 48] ++ [])) 800000000 = some (s, e) ∧
        StartsOn y (.M 3 5 0) 7200 s ∧ EndsOn y (.J 300) 7200 (-3600 - -7200) e) ↔
        Right 365 y (.M 3 5 0) ∧ Right 365 y (.J 300)) := by
  have hmonth : RuleText (.M 3 5 0) [77, 51, 46, 53, 46, 48] :=
    @RuleText.M 3 5 0 [51] [53] [48] ⟨by decide, all_eq_true.mp (by decide), by decide⟩
      ⟨by decide, all_eq_true.mp (by decide), by decide⟩ ⟨by decide, all_eq_true.mp (by decide), by decide⟩ (by decide) (by decide)
      (by decide)
  have hday : RuleText (.J 300) [74, 51, 48, 48] :=
    @RuleText.J 300 [51, 48, 48] ⟨by decide, all_eq_true.mp (by decide), by decide⟩ (by decide) (by decide)
  have hcomma : TimeText (comma :: ([74, 51, 48, 48] ++ [])) 7200
      (comma :: ([74, 51, 48, 48] ++ [])) := .inl ⟨rfl, by decide, by decide, rfl⟩
  have hend : TimeText [] 7200 [] := .inl ⟨rfl, by decide, by decide, rfl⟩
  exact ⟨by decide +kernel,
    posixgetdst_denotes 365 (-3600) (-7200) 800000000 hmonth hcomma hday hend⟩

/-- `M3.5.0,M9.5.0` in the year 1995: summer time ends on the first of October, not on 24 September. -/
theorem posixgetdst_strays :
    posixgetdst 365 (-3600) (-7200) [77, 51, 46, 53, 46, 48, 44, 77, 57, 46, 53, 46, 48] 800000000
        = some (84 * 86400 + 7200, 273 * 86400 + 7200 - 3600) ∧
      ¬ EndsOn 1995 (.M 9 5 0) 7200 3600 (273 * 86400 + 7200 - 3600) := by
  refine ⟨by decide +kernel, ?_⟩
  rintro ⟨day, hday, he⟩
  rw [denotes_month (by decide) (by decide) (by decide),
    show monthStart 1995 (9 - 1 : Int).toNat + prescribed 1995 9 5 0 - 1 = 266 by decide] at hday
  subst hday
  revert he
  decide

end Svr42.TzRules
