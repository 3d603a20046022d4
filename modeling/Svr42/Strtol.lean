import Mathlib.Data.List.TakeWhile
import Mathlib.Algebra.Order.Ring.Int

/-! `strtol`. A string is the list of its bytes before the terminator; a pointer into it is what is left. -/

namespace Svr42.Strtol

abbrev Str := List UInt8

def minus : UInt8 := 45
def plus : UInt8 := 43
def zero : UInt8 := 48
def lowerX : UInt8 := 120
def upperX : UInt8 := 88

def isdigit (c : UInt8) : Bool := decide (48 ≤ c) && decide (c ≤ 57)
def islower (c : UInt8) : Bool := decide (97 ≤ c) && decide (c ≤ 122)
def isupper (c : UInt8) : Bool := decide (65 ≤ c) && decide (c ≤ 90)
def isalnum (c : UInt8) : Bool := isupper c || islower c || isdigit c
def isspace (c : UInt8) : Bool := decide (c = 32) || (decide (9 ≤ c) && decide (c ≤ 13))
def isxdigit (c : UInt8) : Bool :=
  isdigit c || (decide (97 ≤ c) && decide (c ≤ 102)) || (decide (65 ≤ c) && decide (c ≤ 70))

/-! ### The routine -/

inductive Errno where
  | EINVAL
  | ERANGE
deriving DecidableEq

def LONG_MIN : Int := -2147483647 - 1
def LONG_MAX : Int := 2147483647
def MBASE : Int := 36

def long (v : Int) : Int := v.bmod 0x100000000

def DIGIT (x : UInt8) : Int :=
  if isdigit x then x.toNat - 48
  else if islower x then x.toNat + 10 - 97
  else x.toNat + 10 - 65

def lisalnum (x : UInt8) : Bool :=
  isdigit x || (decide (97 ≤ x) && decide (x ≤ 122)) || (decide (65 ≤ x) && decide (x ≤ 90))

def isDigitOf (base : Int) (c : UInt8) : Bool := lisalnum c && decide (DIGIT c < base)

def deref (str : Str) : UInt8 := str.headD 0

/-- White space and a sign are passed over. -/
def sign (str : Str) : Bool × Str :=
  if isalnum (deref str) then (false, str)
  else
    if deref (str.dropWhile isspace) = minus then (true, (str.dropWhile isspace).tail)
    else if deref (str.dropWhile isspace) = plus then (false, (str.dropWhile isspace).tail)
    else (false, str.dropWhile isspace)

def isX (c : UInt8) : Bool := decide (c = lowerX) || decide (c = upperX)

def radix (base : Int) (str : Str) : Int :=
  if base = 0 then
    if deref str ≠ zero then 10 else if isX (deref str.tail) then 16 else 8
  else base

def skip (base : Int) (str : Str) : Str :=
  if base = 16 ∧ deref str = zero ∧ isX (deref str.tail) = true ∧ isxdigit (deref str.tail.tail) = true
  then str.tail.tail else str

/-- The loop over the digits: the value, or none on overflow, and where it stopped. -/
def accumulate (base multmin limit : Int) : Int → Str → Option Int × Str
  | val, [] => (some val, [])
  | val, c :: str =>
      if isDigitOf base c then
        if val < multmin then (none, c :: str)
        else if long (val * base) < long (limit + DIGIT c) then (none, c :: str)
        else accumulate base multmin limit (long (long (val * base) - DIGIT c)) str
      else (some val, c :: str)

/-- What is returned, what is stored through `nptr`, and what `errno` is set to. -/
structure Result where
  val : Int
  endp : Str
  errno : Option Errno
deriving DecidableEq

def finish (neg : Bool) (base : Int) (r : Option Int × Str) : Result :=
  match r.1 with
  | some val => ⟨if neg then val else long (-val), r.2, none⟩
  | none => ⟨if neg then LONG_MIN else LONG_MAX, r.2.tail.dropWhile (isDigitOf base), some .ERANGE⟩

def number (neg : Bool) (base : Int) (str : Str) : Result :=
  let limit := if neg then LONG_MIN else -LONG_MAX
  finish neg base (accumulate base (limit.tdiv base) limit (-DIGIT (deref str)) str.tail)

def strtol (base : Int) (str : Str) : Result :=
  if base < 0 ∨ MBASE < base ∨ base = 1 then ⟨0, str, some .EINVAL⟩
  else
    let s := sign str
    if isDigitOf (radix base s.2) (deref s.2) then
      number s.1 (radix base s.2) (skip (radix base s.2) s.2)
    else ⟨0, str, none⟩

/-! ### The texts of numbers -/

/-- The prefix that a base allows before the digits, and the radix of the digits. -/
inductive Radix (base : Int) : Str → Str → Int → Prop
  | plain {ds} : base ≠ 0 → Radix base [] ds base
  | hex {x ds} : base = 0 ∨ base = 16 → isX x = true → Radix base [zero, x] ds 16
  | octal {ds} : base = 0 → Radix base [] (zero :: ds) 8
  | decimal {d ds} : base = 0 → d ≠ zero → Radix base [] (d :: ds) 10

/-- White space, a sign, a prefix and digits. -/
structure Form (base : Int) where
  space : Str
  sgn : Str
  pre : Str
  digits : Str
  base' : Int
  space_ok : ∀ c ∈ space, isspace c = true
  sgn_ok : sgn = [] ∨ sgn = [plus] ∨ sgn = [minus]
  base_ok : Radix base pre digits base'
  nonempty : digits ≠ []
  digits_ok : ∀ c ∈ digits, isDigitOf base' c = true

def value (base : Int) (v : Int) (ds : Str) : Int := ds.foldl (fun v c => v * base + DIGIT c) v

namespace Form
variable {base : Int}

def text (f : Form base) : Str := f.space ++ (f.sgn ++ (f.pre ++ f.digits))

def val (f : Form base) : Int :=
  if f.sgn = [minus] then -value f.base' 0 f.digits else value f.base' 0 f.digits

def Longest (f : Form base) (str : Str) : Prop :=
  f.text <+: str ∧ ∀ g : Form base, g.text <+: str → g.text.length ≤ f.text.length

end Form

def clamp (v : Int) : Int := if v < LONG_MIN then LONG_MIN else if LONG_MAX < v then LONG_MAX else v

def rangeError (v : Int) : Option Errno :=
  if v < LONG_MIN ∨ LONG_MAX < v then some .ERANGE else none

end Svr42.Strtol
