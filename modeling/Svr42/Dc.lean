import Mathlib.Algebra.Order.Ring.Int

/-! Numbers of `dc`: the digits to base 100 of a block, least significant first, the last one -1 for a negative
number. -/

namespace Svr42.Dc

/-- The characters from `beg` to `wt`, and how far `rd` is. -/
structure Blk where
  data : List Int
  rd : Nat
deriving DecidableEq

def EOF : Int := -1

def length (p : Blk) : Nat := p.data.length
def rewind (p : Blk) : Blk := { p with rd := 0 }
def fsfile (p : Blk) : Blk := { p with rd := p.data.length }
def truncate (p : Blk) : Blk := { p with data := p.data.take p.rd }
def sfeof (p : Blk) : Prop := p.rd = p.data.length
def sfbeg (p : Blk) : Prop := p.rd = 0

instance (p : Blk) : Decidable (sfeof p) := inferInstanceAs (Decidable (_ = _))
instance (p : Blk) : Decidable (sfbeg p) := inferInstanceAs (Decidable (_ = _))

def slookc (p : Blk) : Int := if sfeof p then EOF else p.data.getD p.rd 0
def sgetc (p : Blk) : Int × Blk := if sfeof p then (EOF, p) else (p.data.getD p.rd 0, { p with rd := p.rd + 1 })
def sbackc (p : Blk) : Int × Blk :=
  if sfbeg p then (EOF, p) else (p.data.getD (p.rd - 1) 0, { p with rd := p.rd - 1 })
def sputc (p : Blk) (c : Int) : Blk := { p with data := p.data ++ [c] }
def salterc (p : Blk) (c : Int) : Blk :=
  { data := if p.rd < p.data.length then p.data.set p.rd c else p.data ++ [c], rd := p.rd + 1 }

def salloc : Blk := ⟨[], 0⟩

/-- The loop of `chsign`, over the characters that are left. -/
def complement : Nat → Int → Blk → Int × Blk
  | 0, carry, p => (carry, p)
  | n + 1, carry, p =>
      let ct := 100 - slookc p - carry
      if ct ≥ 100 then complement n 0 (salterc p (ct - 100)) else complement n 1 (salterc p ct)

def chsign (p : Blk) : Blk :=
  let r := complement (length p) 0 (rewind p)
  if r.1 ≠ 0 then
    let p := (sbackc (fsfile (sputc r.2 (-1)))).2
    let ct := sbackc p
    if ct.1 = 99 then sputc (truncate ct.2) (-1) else ct.2
  else
    let ct := sbackc (fsfile r.2)
    if ct.1 = 0 then truncate ct.2 else ct.2

/-! ### Addition -/

/-- The loop over the characters of both operands. -/
def addDigits : Nat → Blk → Blk → Int → Blk → Int × Blk
  | 0, _, _, carry, p => (carry, p)
  | size + 1, a1, a2, carry, p =>
      let n1 := if sfeof a1 then (0, a1) else sgetc a1
      let n2 := if sfeof a2 then (0, a2) else sgetc a2
      let n := n1.1 + n2.1 + carry
      if n ≥ 100 then addDigits size n1.2 n2.2 1 (sputc p (n - 100))
      else if n < 0 then addDigits size n1.2 n2.2 (-1) (sputc p (n + 100))
      else addDigits size n1.2 n2.2 0 (sputc p n)

/-- `while(sfbeg(p) == 0 && (c = sbackc(p)) == 0);`, with `rd` characters left. -/
def skipZeros (p : Blk) : Nat → Int × Blk
  | 0 => (0, p)
  | rd + 1 =>
      let c := sbackc { p with rd := rd + 1 }
      if c.1 = 0 then skipZeros c.2 rd else c

/-- `while((c = sbackc(p)) == 99)`, with `rd` characters left. -/
def skip99 (p : Blk) : Nat → Blk
  | 0 => { p with rd := 0 }
  | rd + 1 =>
      let c := sbackc { p with rd := rd + 1 }
      if c.1 = 99 then skip99 c.2 rd else c.2

def stripZeros (p : Blk) : Blk :=
  let p := fsfile p
  if sfbeg p then p
  else
    let c := skipZeros p p.rd
    truncate (if c.1 ≠ 0 then salterc c.2 c.1 else c.2)

def strip99 (p : Blk) : Blk :=
  let p := fsfile p
  let c := sbackc p
  if ¬sfbeg p ∧ c.1 = -1 then truncate (salterc (sgetc (skip99 c.2 c.2.rd)).2 (-1)) else p

def add (a1 a2 : Blk) : Blk :=
  let size := if length a1 > length a2 then length a1 else length a2
  let r := addDigits size (rewind a1) (rewind a2) 0 salloc
  strip99 (stripZeros (if r.1 ≠ 0 then sputc r.2 r.1 else r.2))

/-! ### Multiplication -/

def absolute (p : Blk) : Blk × Bool :=
  let p := fsfile p
  if ¬sfbeg p ∧ (sbackc p).1 < 0 then (chsign p, true) else (p, false)

/-- The inner loop: the rest of `mp` times a digit is added to `mr`. -/
def addRow (cq : Int) : List Int → Int → Blk → Int × Blk
  | [], carry, mr => (carry, mr)
  | cp :: mp, carry, mr =>
      let mcr := if sfeof mr then 0 else slookc mr
      let mt := cp * cq + carry + mcr
      addRow cq mp (mt.tdiv 100) (salterc mr (mt.tmod 100))

/-- The last carry of a row. -/
def endRow (carry : Int) (mr : Blk) : Blk :=
  if carry ≠ 0 then
    let mcr := if sfeof mr then 0 else slookc mr
    salterc mr (mcr + carry)
  else mr

/-- The outer loop, over the rest of `mq`. -/
def addRows (mp : List Int) : List Int → Nat → Blk → Blk
  | [], _, mr => mr
  | cq :: mq, offset, mr =>
      let r := addRow cq mp 0 { mr with rd := offset }
      addRows mp mq (offset + 1) (endRow r.1 r.2)

def mult (p q : Blk) : Blk :=
  let mp := absolute p
  let mq := absolute q
  let mr := addRows mp.1.data mq.1.data 0 salloc
  if mp.2 != mq.2 then chsign mr else mr

def value : List Int → Int
  | [] => 0
  | d :: ds => d + 100 * value ds

def Digits (ds : List Int) : Prop := ∀ d ∈ ds, 0 ≤ d ∧ d ≤ 99

/-- No leading zero, and no 99 before the leading -1. -/
inductive Normal : List Int → Prop
  | zero : Normal []
  | pos {ds : List Int} {d : Int} : Digits ds → 1 ≤ d → d ≤ 99 → Normal (ds ++ [d])
  | neg {ds : List Int} : Digits ds → ds.getLast? ≠ some 99 → Normal (ds ++ [-1])

end Svr42.Dc
