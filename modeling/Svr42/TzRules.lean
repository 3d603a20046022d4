import Svr42.TimeComm

/-! Summer time rules in the text of `TZ`: `posixsubdst`, which reads a rule, and `posixgetdst`, which finds the two days of a
year. A text is the list of its bytes up to the null byte. -/

namespace Svr42.TzRules
open List Option
open TimeComm Calendar

abbrev Str := List UInt8

def slash : UInt8 := 47

def colon : UInt8 := 58

def comma : UInt8 := 44

def dot : UInt8 := 46

def plus : UInt8 := 43

def minus : UInt8 := 45

def letterJ : UInt8 := 74

def letterM : UInt8 := 77

def isdigit (c : UInt8) : Bool := decide (48 ≤ c.toNat ∧ c.toNat ≤ 57)

def atDigit (p : Str) : Bool := (p.head?.map isdigit).getD false

@[simp] theorem atDigit_cons (c : UInt8) (p : Str) : atDigit (c :: p) = isdigit c := rfl

/-! ### Numbers and times -/

/-- The loop of `getdigit`. -/
def digits : Int → Str → Str × Int
  | d, [] => ([], d)
  | d, c :: ptr =>
    if isdigit c then digits (long (long (d * 10) + ((c.toNat : Int) - 48))) ptr
    else (c :: ptr, d)

def getdigit (ptr : Str) : Option (Str × Int) := if atDigit ptr then some (digits 0 ptr) else none

/-- The part `[:mm[:ss]]` of a time, of which the seconds are `t` so far. -/
def minutes (p : Str) (t : Int) : Option Str × Int :=
  if p.head? = some colon then
    match getdigit p.tail with
    | none => (none, t)
    | some (p, d) =>
        let t := long (t + long (d * SEC_PER_MIN))
        if p.head? = some colon then
          match getdigit p.tail with
          | none => (none, t)
          | some (p, d) => (some p, long (t + d))
        else (some p, t)
  else (some p, t)

/-- The rest of the text, if there is a time, and what is stored in `*timez` all the same. -/
def gettime (p : Str) (f : Bool) : Option Str × Int :=
  let sign := f && decide (p.head? = some minus)
  let p := if f && (sign || decide (p.head? = some plus)) then p.tail else p
  let time :=
    match getdigit p with
    | none => (none, 0)
    | some (p, d) => minutes p (long (d * SEC_PER_HOUR))
  (time.1, if sign then long (-time.2) else time.2)

/-! ### Rules -/

/-- What `posixsubdst` stores for a rule: `*type` and the numbers that go with it. -/
inductive Rule where
  | julian (jul : Int)
  | J (jul : Int)
  | M (m n d : Int)
deriving DecidableEq

/-- The three numbers of a rule of type `M`. -/
def monthRule (p : Str) : Option (Rule × Str) :=
  (getdigit p).bind fun rm =>
    if rm.2 ≤ 0 ∨ rm.2 > 12 ∨ rm.1.head? ≠ some dot then none
    else
      (getdigit rm.1.tail).bind fun rn =>
        if rn.2 ≤ 0 ∨ rn.2 > 5 ∨ rn.1.head? ≠ some dot then none
        else
          (getdigit rn.1.tail).bind fun rd =>
            if rd.2 < 0 ∨ rd.2 > 6 then none else some (Rule.M rm.2 rn.2 rd.2, rd.1)

/-- `posixsubdst` as far as the day. -/
def dayRule (p : Str) : Option (Rule × Str) :=
  if atDigit p then
    (getdigit p).bind fun r =>
      if r.2 < 0 ∨ r.2 > 365 then none else some (Rule.julian r.2, r.1)
  else if p.head? = some letterJ then
    (getdigit p.tail).bind fun r =>
      if r.2 ≤ 0 ∨ r.2 > 365 then none else some (Rule.J (r.2 - 1), r.1)
  else if p.head? = some letterM then monthRule p.tail
  else none

/-- The rule, its time of the day, which is `tm` if the text has none, and the rest of the text. -/
def posixsubdst (p : Str) (tm : Int) : Option (Rule × Int × Str) :=
  (dayRule p).bind fun r =>
    if r.2.head? = some slash then
      (gettime r.2.tail false).1.map fun rest => (r.1, (gettime r.2.tail false).2, rest)
    else some (r.1, tm, r.2)

/-! ### The days of a year -/

def FEB28 : Int := 58

def yday_to_month (leap : Bool) : List Int :=
  if leap then [0, 31, 60, 91, 121, 152, 182, 213, 244, 274, 305, 335]
  else [0, 31, 59, 90, 120, 151, 181, 212, 243, 273, 304, 334]

theorem yday_to_month_leap {y : Int} {k : Nat} (hk : k < 12) :
    (yday_to_month (decide (Leap y))).getD k 0 = monthStart y k := by
  by_cases hleap : Leap y
  · interval_cases k <;> simp [yday_to_month, monthStart, monthLength, monthLengths, hleap]
  · interval_cases k <;> simp [yday_to_month, monthStart, monthLength, monthLengths, hleap]

/-- The entry of `__mon_lengths` in the row of the year; the rows follow one another, and after the last comes `beyond`. -/
def lengthAt (beyond : Int) (leap : Bool) (i : Nat) : Int :=
  (mon_lengths false ++ mon_lengths true ++ [beyond]).getD (if leap then 12 + i else i) 0

/-- `for (d = 1; wd != stdd; ++d)` -/
def firstLoop (stdd : Int) : Nat → Int → Int → Int
  | 0, d, _ => d
  | fuel + 1, d, wd =>
      if wd ≠ stdd then firstLoop stdd fuel (d + 1) ((wd + 1).tmod DAYS_PER_WEEK) else d

/-- `for (w = 1; w != stdn; ++w)` -/
def weekLoop (stdn len : Int) : Nat → Int → Int → Int
  | 0, _, d => d
  | fuel + 1, w, d =>
      if w ≠ stdn then
        if d + DAYS_PER_WEEK > len then d + DAYS_PER_WEEK - DAYS_PER_WEEK
        else weekLoop stdn len fuel (w + 1) (d + DAYS_PER_WEEK)
      else d

/-- The day of the year of `*std_tm` for a rule. -/
def julianDay (beyond : Int) (std_tm : Tm) : Rule → Int
  | .julian jul => jul
  | .J jul => if isleap std_tm.tm_year ∧ jul > FEB28 then jul + 1 else jul
  | .M m n d =>
      let wd := std_tm.tm_wday - std_tm.tm_yday.tmod DAYS_PER_WEEK
      let wd_jan01 := if wd < 0 then wd + DAYS_PER_WEEK else wd
      let start := (yday_to_month (isleap std_tm.tm_year)).getD (m - 1).toNat 0
      let first := firstLoop d 7 1 ((wd_jan01 + start).tmod DAYS_PER_WEEK)
      let last := lengthAt beyond (isleap std_tm.tm_year) m.toNat
      start + weekLoop n last 5 1 first - 1

/-- What `posixgetdst` reads from the text: the two rules with their times. -/
def posixrules (p : Str) : Option ((Rule × Int) × (Rule × Int)) :=
  (posixsubdst p 7200).bind fun std =>
    if std.2.2.head? ≠ some comma then none
    else (posixsubdst std.2.2.tail 7200).map fun alt => ((std.1, std.2.1), (alt.1, alt.2.1))

def passTime (beyond timezone altzone tim : Int) (std alt : Rule) : Int :=
  let std_tm := gmtime (long (tim - timezone))
  if julianDay beyond std_tm std ≤ julianDay beyond std_tm alt then long (tim - timezone)
  else long (tim - altzone)

/-- `*s` and `*e` -/
def posixgetdst (beyond timezone altzone : Int) (p : Str) (tim : Int) : Option (Int × Int) :=
  (posixrules p).map fun r =>
    let std_tm := gmtime (passTime beyond timezone altzone tim r.1.1 r.2.1)
    (long (julianDay beyond std_tm r.1.1 * SEC_PER_DAY + r.1.2),
      long (julianDay beyond std_tm r.2.1 * SEC_PER_DAY + r.2.2 - (timezone - altzone)))

/-! ### The texts of rules -/

/-- A rule as it is written. -/
inductive PosixRule where
  | J (n : Int)
  | day (n : Int)
  | M (m n d : Int)

/-- What `posixsubdst` makes of it. -/
def PosixRule.stored : PosixRule → Rule
  | .J n => .J (n - 1)
  | .day n => .julian n
  | .M m n d => .M m n d

def value (d : Int) (w : Str) : Int := w.foldl (fun v c => v * 10 + ((c.toNat : Int) - 48)) d

/-- The text `w` is the number `n` in decimal, leading zeros allowed. -/
def Decimal (n : Int) (w : Str) : Prop := w ≠ [] ∧ (∀ c ∈ w, isdigit c = true) ∧ value 0 w = n

/-- The text of a rule; its numbers are within their ranges. -/
inductive RuleText : PosixRule → Str → Prop
  | J {n : Int} {w : Str} (h : Decimal n w) (h1 : 1 ≤ n) (h2 : n ≤ 365) :
      RuleText (.J n) (letterJ :: w)
  | day {n : Int} {w : Str} (h : Decimal n w) (h1 : 0 ≤ n) (h2 : n ≤ 365) : RuleText (.day n) w
  | M {m n d : Int} {wm wn wd : Str} (hm : Decimal m wm) (hn : Decimal n wn) (hd : Decimal d wd)
      (hm1 : 1 ≤ m ∧ m ≤ 12) (hn1 : 1 ≤ n ∧ n ≤ 5) (hd1 : 0 ≤ d ∧ d ≤ 6) :
      RuleText (.M m n d) (letterM :: (wm ++ dot :: (wn ++ dot :: wd)))

/-- What follows a rule: a time `t` of the day and the text `rest`, or at once `rest`, for two o'clock. -/
def TimeText (q : Str) (t : Int) (rest : Str) : Prop :=
  (q = rest ∧ q.head? ≠ some slash ∧ atDigit q = false ∧ t = 7200) ∨
    ∃ u, q = slash :: u ∧ gettime u false = (some rest, t)

variable {q rest : Str} {t : Int}

theorem TimeText.atDigit_false (h : TimeText q t rest) : atDigit q = false := by
  rcases h with ⟨_, _, h, _⟩ | ⟨u, rfl, _⟩
  · exact h
  · rfl

theorem le_value {w : Str} : ∀ {d : Int}, 0 ≤ d → (∀ c ∈ w, isdigit c = true) → d ≤ value d w := by
  induction w with
  | nil => exact fun _ _ => le_refl _
  | cons c w ih =>
    intro d hd hw
    have hc := hw c (.head _)
    simp only [isdigit, decide_eq_true_eq] at hc
    have hstep := ih (d := d * 10 + ((c.toNat : Int) - 48)) (by omega)
      fun x hx => hw x (.tail c hx)
    rw [value, foldl_cons, ← value]
    omega

theorem digits_append (hq : atDigit q = false) {w : Str} : ∀ {d : Int}, 0 ≤ d →
    (∀ c ∈ w, isdigit c = true) → value d w < 0x80000000 → digits d (w ++ q) = (q, value d w) := by
  induction w with
  | nil =>
    intro d _ _ _
    cases q with
    | nil => rfl
    | cons c q =>
      rw [nil_append, digits, if_neg (by simpa [atDigit] using hq)]
      rfl
  | cons c w ih =>
    intro d hd hw hlt
    have hc := hw c (.head _)
    have hrest : ∀ x ∈ w, isdigit x = true := fun x hx => hw x (.tail c hx)
    rw [value, foldl_cons, ← value] at hlt ⊢
    have hnum := hc
    simp only [isdigit, decide_eq_true_eq] at hnum
    have hstep : (0 : Int) ≤ d * 10 + ((c.toNat : Int) - 48) := by omega
    have hle := le_value hstep hrest
    have hlong : long (long (d * 10) + ((c.toNat : Int) - 48)) = d * 10 + ((c.toNat : Int) - 48) := by
      rw [long, long, Int.bmod_add_bmod, Int.bmod_eq_of_le_mul_two (by omega) (by omega)]
    rw [cons_append, digits, if_pos hc, hlong]
    exact ih hstep hrest hlt

theorem getdigit_decimal {n : Int} {w : Str} (h : Decimal n w) (hn : n < 0x80000000)
    (hq : atDigit q = false) : getdigit (w ++ q) = some (q, n) := by
  obtain ⟨hne, hdigit, rfl⟩ := h
  obtain ⟨c, w, rfl⟩ := exists_cons_of_ne_nil hne
  have hat : atDigit (c :: w ++ q) = true := hdigit c (.head _)
  rw [getdigit, if_pos hat, digits_append hq (le_refl 0) hdigit hn]

variable {r : PosixRule}

theorem dayRule_text {w : Str} (h : RuleText r w) (hq : atDigit q = false) :
    dayRule (w ++ q) = some (r.stored, q) := by
  have hdot : ∀ u : Str, atDigit (dot :: u) = false := fun _ => rfl
  cases h with
  | J hn h1 h2 =>
    rw [cons_append, dayRule, atDigit_cons, if_neg (by decide),
      head?_cons, if_pos rfl, tail_cons, getdigit_decimal hn (by omega) hq, bind_some, if_neg (by dsimp only; omega)]
    rfl
  | day hn h1 h2 =>
    obtain ⟨c, w, rfl⟩ := exists_cons_of_ne_nil hn.1
    have hat : atDigit (c :: w ++ q) = true := hn.2.1 c (.head _)
    rw [dayRule, if_pos hat, getdigit_decimal hn (by omega) hq, bind_some,
      if_neg (by dsimp only; omega)]
    rfl
  | M hm hn hd hm1 hn1 hd1 =>
    rename_i m n d wm wn wd
    have hm' : ¬ (m ≤ 0 ∨ m > 12 ∨ (dot :: (wn ++ dot :: (wd ++ q))).head? ≠ some dot) := by
      rintro (hlow | hhigh | hhead)
      · omega
      · omega
      · exact hhead rfl
    have hn' : ¬ (n ≤ 0 ∨ n > 5 ∨ (dot :: (wd ++ q)).head? ≠ some dot) := by
      rintro (hlow | hhigh | hhead)
      · omega
      · omega
      · exact hhead rfl
    rw [cons_append, dayRule, atDigit_cons, if_neg (by decide),
      head?_cons, if_neg (show ¬ some letterM = some letterJ by decide), if_pos rfl,
      tail_cons, monthRule]
    simp only [append_assoc, cons_append]
    rw [getdigit_decimal hm (by omega) (hdot _), bind_some, if_neg hm', tail_cons,
      getdigit_decimal hn (by omega) (hdot _), bind_some, if_neg hn', tail_cons,
      getdigit_decimal hd (by omega) hq, bind_some, if_neg (by dsimp only; omega)]
    rfl

theorem posixsubdst_text {w : Str} (h : RuleText r w) (hq : TimeText q t rest) :
    posixsubdst (w ++ q) 7200 = some (r.stored, t, rest) := by
  rw [posixsubdst, dayRule_text h hq.atDigit_false, bind_some]
  rcases hq with ⟨rfl, hslash, _, rfl⟩ | ⟨u, rfl, htime⟩
  · rw [if_neg hslash]
  · rw [head?_cons, if_pos rfl, tail_cons, htime, map_some]

theorem posixrules_text {r' : PosixRule} {w w' q' : Str} {st et : Int} (h : RuleText r w)
    (hq : TimeText q st (comma :: (w' ++ q'))) (h' : RuleText r' w') (hq' : TimeText q' et rest) :
    posixrules (w ++ q) = some ((r.stored, st), (r'.stored, et)) := by
  rw [posixrules, posixsubdst_text h hq, bind_some, if_neg (fun hne => hne rfl)]
  rw [tail_cons, posixsubdst_text h' hq', map_some]

end Svr42.TzRules
