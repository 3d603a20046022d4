import Mathlib.Logic.Function.Iterate
import Mathlib.Tactic.SplitIfs
import Mathlib.Algebra.Group.Int.Defs

/-! The time of day: what `clock` adds to it at every tick, and `adjtime`, which sets an adjustment
that is applied tick by tick. -/

namespace Svr42.Clock

def HZ : Int := 100

def MICROSEC : Int := 1000000

def NANOSEC : Int := 1000000000

def TICK : Int := 10000000

def BIGADJ : Int := 60 * MICROSEC

def SKEW : Int := 8000 / HZ

def BIGSKEW : Int := 10 * SKEW

def long (v : Int) : Int := v.bmod 0x100000000

/-- `timedelta` in microseconds, and `hrestime`. -/
structure TimeOfDay where
  timedelta : Int
  tvSec : Int
  tvNsec : Int
  deriving DecidableEq, Repr

def bumptime (nsec : Int) (c : TimeOfDay) : TimeOfDay :=
  if NANOSEC ≤ c.tvNsec + nsec then
    { c with tvNsec := c.tvNsec + nsec - NANOSEC, tvSec := long (c.tvSec + 1) }
  else { c with tvNsec := c.tvNsec + nsec }

def skew (timedelta : Int) : Int :=
  if timedelta < 0 then if timedelta < -BIGADJ then -BIGSKEW else -SKEW
  else if BIGADJ < timedelta then BIGSKEW else SKEW

/-- What `clock` does to the time of day. -/
def clock (c : TimeOfDay) : TimeOfDay :=
  if c.timedelta = 0 then bumptime TICK c
  else
    let delta := skew c.timedelta
    bumptime ((MICROSEC / HZ + delta) * (NANOSEC / MICROSEC))
      { c with timedelta := c.timedelta - delta }

def roundSkew (delta : Int) : Int :=
  if delta.tmod SKEW ≠ 0 then delta.tdiv SKEW * SKEW else delta

def taken (timedelta delta : Int) : Int :=
  if roundSkew delta = 0 ∧ timedelta ≠ 0 then SKEW else roundSkew delta

def clockadj (delta : Int) (c : TimeOfDay) : TimeOfDay × Int :=
  ({ c with timedelta := taken c.timedelta delta }, c.timedelta)

def adjtime (tvSec tvUsec : Int) (c : TimeOfDay) : TimeOfDay :=
  (clockadj (long (tvSec * MICROSEC + tvUsec)) c).1

inductive Event where
  | tick
  | adjtime (tvSec tvUsec : Int)

def step (c : TimeOfDay) : Event → TimeOfDay
  | .tick => clock c
  | .adjtime tvSec tvUsec => adjtime tvSec tvUsec c

def boot (tvSec : Int) : TimeOfDay := ⟨0, long tvSec, 0⟩

def Reachable (c : TimeOfDay) : Prop := ∃ tvSec events, c = List.foldl step (boot tvSec) events

end Svr42.Clock
