import Mathlib.Tactic.IntervalCases

/-! The calendar: the proleptic Gregorian calendar by days from the first of January 1970, a Thursday. Years are integers, the months
of a year are numbered from zero. -/

namespace Svr42.Calendar
open List

def Leap (y : Int) : Prop := y % 4 = 0 ∧ (y % 100 ≠ 0 ∨ y % 400 = 0)

instance (y : Int) : Decidable (Leap y) := inferInstanceAs (Decidable (_ ∧ _))

def yearLength (y : Int) : Int := if Leap y then 366 else 365

/-- The number of leap years before the year `y`, from the year one on. -/
def leapsBefore (y : Int) : Int := (y - 1) / 4 - (y - 1) / 100 + (y - 1) / 400

def daysBefore (y : Int) : Int := 365 * (y - 1970) + leapsBefore y - 477

def weekday (day : Int) : Int := (4 + day) % 7

def monthLengths (y : Int) : List Int :=
  [31, if Leap y then 29 else 28, 31, 30, 31, 30, 31, 31, 30, 31, 30, 31]

def monthLength (y : Int) (k : Nat) : Int := (monthLengths y).getD k 0

def monthStart (y : Int) : Nat → Int
  | 0 => 0
  | k + 1 => monthStart y k + monthLength y k

/-! ### Years -/

theorem leapsBefore_succ (y : Int) : leapsBefore (y + 1) = leapsBefore y + if Leap y then 1 else 0 := by
  rw [leapsBefore, leapsBefore]
  split_ifs with hleap
  · rw [Leap] at hleap
    omega
  · rw [Leap] at hleap
    omega

theorem daysBefore_succ (y : Int) : daysBefore (y + 1) = daysBefore y + yearLength y := by
  rw [daysBefore, leapsBefore_succ, daysBefore, yearLength]
  split <;> omega

theorem daysBefore_add (y : Int) (n : Nat) : daysBefore y + 365 * n ≤ daysBefore (y + n) := by
  induction n with
  | zero => simp
  | succ n ih =>
    have hstep := daysBefore_succ (y + n)
    have hlen : 365 ≤ yearLength (y + n) := by rw [yearLength]; split <;> omega
    rw [show y + ((n + 1 : Nat) : Int) = y + n + 1 by omega]
    omega

theorem daysBefore_lt {y z : Int} (h : y < z) : daysBefore y + yearLength y ≤ daysBefore z := by
  obtain ⟨n, rfl⟩ := Int.le.dest (show y + 1 ≤ z by omega)
  have hgrow := daysBefore_add (y + 1) n
  have hstep := daysBefore_succ y
  omega

theorem year_unique {y z d e : Int} (hd : 0 ≤ d ∧ d < yearLength y) (he : 0 ≤ e ∧ e < yearLength z)
    (h : daysBefore y + d = daysBefore z + e) : y = z ∧ d = e := by
  have hyz : y = z := by
    rcases lt_trichotomy y z with hlt | heq | hlt
    · have hle := daysBefore_lt hlt
      omega
    · exact heq
    · have hle := daysBefore_lt hlt
      omega
  subst hyz
  exact ⟨rfl, by omega⟩

/-! ### Months -/

theorem monthStart_twelve (y : Int) : monthStart y 12 = yearLength y := by
  simp only [monthStart, monthLength, monthLengths, getD_cons_zero, getD_cons_succ, yearLength]
  split <;> rfl

theorem monthLength_bounds (y : Int) {k : Nat} (hk : k < 12) :
    28 ≤ monthLength y k ∧ monthLength y k ≤ 31 := by
  simp only [monthLength, monthLengths]
  by_cases hleap : Leap y <;> simp only [hleap, if_true, if_false] <;> interval_cases k <;> decide

theorem monthLength_nonneg (y : Int) (k : Nat) : 0 ≤ monthLength y k := by
  by_cases hk : k < 12
  · have hb := (monthLength_bounds y hk).1
    omega
  have hlen : (monthLengths y).length ≤ k := by
    simp only [monthLengths, length_cons, length_nil]
    omega
  rw [monthLength, getD_eq_getElem?_getD, getElem?_eq_none hlen]
  exact le_refl _

theorem monthStart_mono (y : Int) {j k : Nat} (h : j ≤ k) : monthStart y j ≤ monthStart y k := by
  induction k with
  | zero => rw [Nat.le_zero.mp h]
  | succ k ih =>
    rcases Nat.lt_or_eq_of_le h with hlt | rfl
    · have hlen := monthLength_nonneg y k
      rw [monthStart]
      omega
    · exact le_refl _

theorem month_unique {y : Int} {j k : Nat} {d e : Int} (hd : 0 ≤ d ∧ d < monthLength y j)
    (he : 0 ≤ e ∧ e < monthLength y k) (h : monthStart y j + d = monthStart y k + e) : j = k ∧ d = e := by
  have hjk : j = k := by
    rcases lt_trichotomy j k with hlt | heq | hlt
    · have hle := monthStart_mono y hlt
      rw [monthStart] at hle
      omega
    · exact heq
    · have hle := monthStart_mono y hlt
      rw [monthStart] at hle
      omega
  subst hjk
  exact ⟨rfl, by omega⟩

theorem monthStart_lt_year (y : Int) {k : Nat} (hk : k < 12) {d : Int} (hd : d < monthLength y k) :
    monthStart y k + d < yearLength y := by
  have hle := monthStart_mono y (show k + 1 ≤ 12 by omega)
  rw [monthStart, monthStart_twelve] at hle
  omega

theorem weekday_add (day n : Int) : weekday (day + n) = (weekday day + n) % 7 := by
  rw [weekday, weekday]
  omega

end Svr42.Calendar
