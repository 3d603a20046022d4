import Mathlib.Data.Rat.Floor
import Svr42.DoubleLong

/-! `hrt_newres`: a time of day or an interval is converted from one resolution to another. -/

namespace Svr42.Hrt

open Dlong

def NANOSEC : Nat := 1000000000

inductive Errno where
  | erange
  deriving DecidableEq, Repr

/-- HRT_TRUNC, HRT_RND and HRT_RNDUP. -/
inductive Rounding where
  | hrtTrunc
  | hrtRnd
  | hrtRndup
  deriving DecidableEq, Repr

def ulong (v : Int) : Nat := (v % 0x100000000).toNat

def long (v : Int) : Int := v.bmod 0x100000000

/-- `hrtRem` is a long, the other two are unsigned. -/
structure Hrtime where
  hrtSecs : Nat
  hrtRem : Int
  hrtRes : Nat
  deriving DecidableEq, Repr

def hrtCheckres (res : Nat) : Option Errno :=
  if res = 0 ∨ NANOSEC < res then some .erange else none

/-- `temp = result + 1; if (temp - 1 == result) result++; else return(ERANGE);` -/
def increment (result : Int) : Except Errno Int :=
  let temp := long (result + 1)
  if long (temp - 1) = result then .ok (long (result + 1)) else .error .erange

/-- The calculation in single precision; none where it overflows. -/
def single (interval : Int) (res newRes : Nat) (rnd : Rounding) : Option (Except Errno Int) :=
  let numerator := long (interval * newRes)
  if ulong numerator / newRes = ulong interval then
    let result := long ((ulong numerator / res : Nat) : Int)
    match rnd with
    | .hrtRnd =>
        let modulus := ulong (numerator - result * res)
        let twomodulus := ulong (2 * modulus : Nat)
        if twomodulus / 2 = modulus then
          some (if res ≤ twomodulus then increment result else .ok result)
        else none
    | .hrtRndup => some (if ulong (result * res) ≠ ulong numerator then increment result else .ok result)
    | .hrtTrunc => some (.ok result)
  else none

def dlOf (v : Nat) : Dl := BitVec.ofNat 64 v

def drem (res : Nat) : Rounding → Nat
  | .hrtTrunc => 0
  | .hrtRnd => res / 2
  | .hrtRndup => res - 1

/-- The slow but careful way. -/
def double (interval : Int) (res newRes : Nat) (rnd : Rounding) : Except Errno Int :=
  let prod := lmul (dlOf (ulong interval)) (dlOf newRes)
  let prod := ladd prod (dlOf (drem res rnd))
  let quot := ldivide prod (dlOf res)
  if dlHop quot ≠ 0 then .error .erange else .ok (long (dlLop quot))

/-- What is a second or more goes to the seconds. -/
def carry (htp : Hrtime) : Hrtime :=
  if htp.hrtRes ≤ ulong htp.hrtRem then
    { htp with
      hrtSecs := ulong (htp.hrtSecs + ulong htp.hrtRem / htp.hrtRes : Nat)
      hrtRem := (ulong htp.hrtRem % htp.hrtRes : Nat) }
  else htp

def hrtNewres (htp : Hrtime) (newRes : Nat) (rnd : Rounding) : Hrtime × Option Errno :=
  match hrtCheckres newRes with
  | some error => (htp, some error)
  | none =>
      let htp := carry htp
      let interval := htp.hrtRem
      if interval = 0 then ({ htp with hrtRes := newRes }, none)
      else
        match (single interval htp.hrtRes newRes rnd).getD (double interval htp.hrtRes newRes rnd) with
        | .error error => (htp, some error)
        | .ok result => ({ htp with hrtRem := result, hrtRes := newRes }, none)

/-- A number of ticks as a whole number, rounded down, to the nearest (up at the half) or up. -/
def Rounding.apply : Rounding → ℚ → ℤ
  | .hrtTrunc, ticks => ⌊ticks⌋
  | .hrtRnd, ticks => ⌊ticks + 1 / 2⌋
  | .hrtRndup, ticks => ⌈ticks⌉

/-- The time at the new resolution, of less than a second behind the seconds. -/
def converted (htp : Hrtime) (newRes : Nat) (rnd : Rounding) : Hrtime :=
  let ticks := rnd.apply ((htp.hrtRem : ℚ) * newRes / htp.hrtRes)
  { hrtSecs := ulong (htp.hrtSecs + ticks / newRes)
    hrtRem := ticks % newRes
    hrtRes := newRes }

end Svr42.Hrt
