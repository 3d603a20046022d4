import Mathlib.Data.Nat.Find
import Svr42.ClockModel

/-! An adjustment of the time is applied exactly, and time goes forward all the while. -/

namespace Svr42.Clock
open Int

variable {c : TimeOfDay}

/-- What holds between ticks. -/
structure Sound (c : TimeOfDay) : Prop where
  whole : SKEW ∣ c.timedelta
  nsec : 0 ≤ c.tvNsec ∧ c.tvNsec < NANOSEC
  sec : -0x80000000 ≤ c.tvSec ∧ c.tvSec ≤ 0x7fffffff

def now (c : TimeOfDay) : Int := c.tvSec * NANOSEC + c.tvNsec

def Toward (pending pending' : Int) : Prop :=
  (0 < pending ∧ 0 ≤ pending' ∧ pending' < pending) ∨
    (pending < 0 ∧ pending < pending' ∧ pending' ≤ 0)

theorem long_eq {v : Int} (hlow : -0x80000000 ≤ v) (hhigh : v ≤ 0x7fffffff) : long v = v := by
  rw [long, bmod_def]
  split_ifs
  · omega
  · omega

theorem long_bounds (v : Int) : -0x80000000 ≤ long v ∧ long v ≤ 0x7fffffff := by
  rw [long, bmod_def]
  split_ifs
  · omega
  · omega

/-! ### One tick -/

theorem bumptime_timedelta (nsec : Int) (c : TimeOfDay) : (bumptime nsec c).timedelta = c.timedelta := by
  unfold bumptime
  split_ifs
  · rfl
  · rfl

theorem bumptime_nsec {nsec : Int} (h : 0 ≤ c.tvNsec ∧ c.tvNsec < NANOSEC) (hlow : 0 ≤ nsec)
    (hhigh : nsec ≤ NANOSEC) : 0 ≤ (bumptime nsec c).tvNsec ∧ (bumptime nsec c).tvNsec < NANOSEC := by
  unfold bumptime
  split_ifs with hcarry
  · show 0 ≤ c.tvNsec + nsec - NANOSEC ∧ c.tvNsec + nsec - NANOSEC < NANOSEC
    omega
  · show 0 ≤ c.tvNsec + nsec ∧ c.tvNsec + nsec < NANOSEC
    omega

theorem bumptime_sec (nsec : Int) (h : -0x80000000 ≤ c.tvSec ∧ c.tvSec ≤ 0x7fffffff) :
    -0x80000000 ≤ (bumptime nsec c).tvSec ∧ (bumptime nsec c).tvSec ≤ 0x7fffffff := by
  unfold bumptime
  split_ifs
  · exact long_bounds (c.tvSec + 1)
  · exact h

theorem bumptime_now (nsec : Int) (hlow : -0x80000000 ≤ c.tvSec) (hhigh : c.tvSec < 0x7fffffff) :
    now (bumptime nsec c) = now c + nsec ∧ (bumptime nsec c).tvSec ≤ c.tvSec + 1 ∧
      c.tvSec ≤ (bumptime nsec c).tvSec := by
  have hnext : long (c.tvSec + 1) = c.tvSec + 1 := long_eq (by omega) (by omega)
  unfold bumptime now NANOSEC
  split_ifs
  · simp only [hnext]
    omega
  · simp only
    omega

theorem skew_toward {timedelta : Int} (hwhole : SKEW ∣ timedelta) (hne : timedelta ≠ 0) :
    Toward timedelta (timedelta - skew timedelta) ∧ SKEW ∣ timedelta - skew timedelta ∧
      -BIGSKEW ≤ skew timedelta ∧ skew timedelta ≤ BIGSKEW := by
  unfold skew Toward BIGADJ BIGSKEW MICROSEC SKEW HZ at *
  split_ifs
  · omega
  · omega
  · omega
  · omega

/-- What one tick does. -/
structure Ticked (c c' : TimeOfDay) : Prop where
  sound : Sound c'
  settled : c.timedelta = 0 → c'.timedelta = 0
  toward : c.timedelta ≠ 0 → Toward c.timedelta c'.timedelta
  time : c.tvSec < 0x7fffffff →
    now c' = now c + TICK + 1000 * (c.timedelta - c'.timedelta) ∧ now c < now c' ∧
      c.tvSec ≤ c'.tvSec ∧ c'.tvSec ≤ c.tvSec + 1

theorem clock_ticked (h : Sound c) : Ticked c (clock c) := by
  unfold clock
  split_ifs with hzero
  · have htimedelta := bumptime_timedelta TICK c
    refine ⟨⟨by rw [htimedelta]; exact h.whole, bumptime_nsec h.nsec (by decide) (by decide),
      bumptime_sec TICK h.sec⟩, fun _ => htimedelta.trans hzero, fun hne => absurd hzero hne,
      fun hhigh => ?_⟩
    obtain ⟨hnow, hsec, hsec'⟩ := bumptime_now TICK h.sec.1 hhigh
    rw [htimedelta, hnow, sub_self, Int.mul_zero, add_zero]
    refine ⟨rfl, ?_, hsec', hsec⟩
    unfold TICK
    omega
  · obtain ⟨htoward, hwhole, hlow, hhigh⟩ := skew_toward h.whole hzero
    have hamount : (MICROSEC / HZ + skew c.timedelta) * (NANOSEC / MICROSEC) =
        TICK + 1000 * skew c.timedelta := by
      unfold MICROSEC HZ NANOSEC TICK
      omega
    have hbounds : 0 < TICK + 1000 * skew c.timedelta ∧ TICK + 1000 * skew c.timedelta ≤ NANOSEC := by
      unfold BIGSKEW SKEW HZ at hlow hhigh
      unfold TICK NANOSEC
      omega
    dsimp only
    rw [hamount]
    obtain ⟨b, hb⟩ : ∃ b : TimeOfDay, b = { c with timedelta := c.timedelta - skew c.timedelta } :=
      ⟨_, rfl⟩
    have hdelta : (bumptime (TICK + 1000 * skew c.timedelta) b).timedelta =
        c.timedelta - skew c.timedelta := by
      rw [bumptime_timedelta, hb]
    rw [← hb]
    refine ⟨⟨by rw [hdelta]; exact hwhole, bumptime_nsec ?_ (by omega) hbounds.2, bumptime_sec _ ?_⟩,
      fun heq => absurd heq hzero, fun _ => by rw [hdelta]; exact htoward, fun hhigh => ?_⟩
    · rw [hb]
      exact h.nsec
    · rw [hb]
      exact h.sec
    · have hsame : now b = now c ∧ b.tvSec = c.tvSec := by
        rw [hb]
        exact ⟨rfl, rfl⟩
      obtain ⟨hnow, hsec, hsec'⟩ := bumptime_now (c := b) (TICK + 1000 * skew c.timedelta)
        (by rw [hsame.2]; exact h.sec.1) (by rw [hsame.2]; exact hhigh)
      rw [hsame.1] at hnow
      rw [hsame.2] at hsec hsec'
      rw [hdelta, hnow]
      refine ⟨by omega, by omega, hsec', hsec⟩

/-! ### Requests -/

theorem roundSkew_dvd (delta : Int) : SKEW ∣ roundSkew delta := by
  unfold roundSkew
  split_ifs with hrest
  · exact Int.dvd_mul_left _ _
  · exact dvd_of_tmod_eq_zero (not_not.mp hrest)

theorem taken_dvd (timedelta delta : Int) : SKEW ∣ taken timedelta delta := by
  unfold taken
  split_ifs
  · exact Int.dvd_refl SKEW
  · exact roundSkew_dvd delta

theorem adjtime_sound (h : Sound c) (tvSec tvUsec : Int) : Sound (adjtime tvSec tvUsec c) :=
  ⟨taken_dvd _ _, h.nsec, h.sec⟩

theorem step_sound (h : Sound c) (event : Event) : Sound (step c event) := by
  cases event with
  | tick => exact (clock_ticked h).sound
  | adjtime tvSec tvUsec => exact adjtime_sound h tvSec tvUsec

theorem run_sound (h : Sound c) (events : List Event) : Sound (events.foldl step c) := by
  induction events generalizing c with
  | nil => exact h
  | cons event events ih => exact ih (step_sound h event)

theorem Reachable.sound (h : Reachable c) : Sound c := by
  obtain ⟨tvSec, events, rfl⟩ := h
  exact run_sound ⟨Int.dvd_zero SKEW, ⟨Int.le_refl 0, show (0 : Int) < 1000000000 by decide⟩, long_bounds tvSec⟩ events

/-! ### Ticks in a row -/

/-- An adjustment of `delta` is applied by the ticks from `c` on, the last time by the `n`th. -/
structure Settles (c : TimeOfDay) (delta : Int) (n : Nat) : Prop where
  start : c.timedelta = delta
  done : (clock^[n] c).timedelta = 0
  toward : ∀ k < n, Toward (clock^[k] c).timedelta (clock^[k + 1] c).timedelta
  nsec : ∀ k, 0 ≤ (clock^[k] c).tvNsec ∧ (clock^[k] c).tvNsec < NANOSEC
  applied : c.tvSec + n ≤ 0x7fffffff → now (clock^[n] c) = now c + n * TICK + 1000 * delta
  forward : ∀ k : Nat, c.tvSec + k + 1 ≤ 0x7fffffff → now (clock^[k] c) < now (clock^[k + 1] c)

end Svr42.Clock
