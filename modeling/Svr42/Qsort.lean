import Svr42.SelectSort

/-! `qsort`. The array is the list of its elements, and a pointer into it the number of an element; all pointers of the code are `base`
plus a multiple of the size. A result is missing if an element outside the array is touched, or if the bound on the steps is too small. -/

namespace Svr42.Qsort
open SelectSort

variable {α : Type} [Inhabited α]

/-- What a variable of type `int` holds once a value is stored in it. -/
def int (v : Int) : Int := v.bmod 0x100000000

def THRESH : Int := 4

def MTHRESH : Int := 6

def qcmp (cmp : α → α → Int) (a : List α) (i j : Nat) : Option Int :=
  if i < a.length ∧ j < a.length then some (cmp (get a i) (get a j)) else none

def swap (a : List α) (i j : Nat) : Option (List α) :=
  if i < a.length ∧ j < a.length then some (exchange a i j) else none

/-- `MAXUVADR`, where the user's addresses end: no array has more bytes. -/
def MAXUVADR : Nat := 0xC0000000

/-! ### `qst` -/

/-- The median of the first, middle and last element, which is put in the middle. -/
def median (cmp : α → α → Int) (base max i : Nat) (a : List α) : Option (List α) :=
  (qcmp cmp a base i).bind fun c =>
    let jj := base
    let j := if c > 0 then jj else i
    let tmp := max - 1
    (qcmp cmp a j tmp).bind fun c =>
      if c > 0 then
        -- switch to first loser
        let j := if j = jj then i else jj
        (qcmp cmp a j tmp).bind fun c =>
          let j := if c < 0 then tmp else j
          if j ≠ i then swap a i j else some a
      else if j ≠ i then swap a i j
      else some a

/-- `while (i < mid && qcmp(i, mid) <= 0)` -/
def scanUp (cmp : α → α → Int) (a : List α) (mid : Nat) : Nat → Nat → Option Nat
  | 0, _ => none
  | fuel + 1, i =>
      if i < mid then
        (qcmp cmp a i mid).bind fun c => if c ≤ 0 then scanUp cmp a mid fuel (i + 1) else some i
      else some i

/-- `while (j > mid)`, up to an element that is to be exchanged. -/
def scanDown (cmp : α → α → Int) (a : List α) (mid : Nat) : Nat → Nat → Option Nat
  | 0, _ => none
  | fuel + 1, j =>
      if j > mid then
        (qcmp cmp a mid j).bind fun c => if c ≤ 0 then scanDown cmp a mid fuel (j - 1) else some j
      else some j

/-- The partition from `i` and `j` on, with the place of the discriminator in the end. -/
def partition (cmp : α → α → Int) : Nat → Nat → Nat → Nat → List α → Option (List α × Nat)
  | 0, _, _, _, _ => none
  | fuel + 1, i, j, mid, a =>
      (scanUp cmp a mid (a.length + 1) i).bind fun i =>
        (scanDown cmp a mid (a.length + 1) j).bind fun j =>
          if j > mid then
            if i = mid then
              -- j <-> mid, new mid is j
              (swap a i j).bind fun a => partition cmp fuel (i + 1) j j a
            else
              -- i <-> j
              (swap a i j).bind fun a => partition cmp fuel (i + 1) (j - 1) mid a
          else if i = mid then some (a, mid)
          else
            -- i <-> mid, new mid is i
            (swap a i mid).bind fun a => partition cmp fuel i (j - 1) i a

/-- `qst`; the code repeats where this calls itself for the larger part. If `lo` is negative, the array has 2^31 bytes or more and the
call is the first one, so that `mid` lies before the array; the first comparison with it is outside. -/
def qst (cmp : α → α → Int) (qsz : Int) : Nat → Nat → Nat → List α → Option (List α)
  | 0, _, _, _ => none
  | fuel + 1, base, max, a =>
      let thresh := int (qsz * THRESH)
      let mthresh := int (qsz * MTHRESH)
      let lo := int ((max - base) * qsz)
      let mid := base + (lo.tdiv qsz) / 2
      if mid < base then none
      else
        (if lo ≥ mthresh then median cmp base max mid.toNat a else some a).bind fun a =>
          (partition cmp (a.length + 1) base (max - 1) mid.toNat a).bind fun r =>
            let j := r.2
            let i := r.2 + 1
            let lo := int ((j - base) * qsz)
            let hi := int ((max - i) * qsz)
            if lo ≤ hi then
              (if lo ≥ thresh then qst cmp qsz fuel base j r.1 else some r.1).bind fun a =>
                if hi ≥ thresh then qst cmp qsz fuel i max a else some a
            else
              (if hi ≥ thresh then qst cmp qsz fuel i max r.1 else some r.1).bind fun a =>
                if lo ≥ thresh then qst cmp qsz fuel base j a else some a

/-! ### `qsort` -/

/-- The place of the smallest element from `j` and those from `lo` to `hi`. -/
def smallest (cmp : α → α → Int) (a : List α) : Nat → Nat → Nat → Option Nat
  | 0, _, j => some j
  | todo + 1, lo, j =>
      (qcmp cmp a j lo).bind fun c => smallest cmp a todo (lo + 1) (if c > 0 then lo else j)

/-- `while (qcmp(hi -= qsz, min) > 0)`, and the element after. Before the first one the array ends. -/
def scanBack (cmp : α → α → Int) (a : List α) (min : Nat) : Nat → Option Nat
  | 0 => none
  | hi + 1 =>
      (qcmp cmp a hi min).bind fun c => if c > 0 then scanBack cmp a min hi else some (hi + 1)

/-- The shift of the elements from `hi` on by one, up to `i`, and `c` in the place of `hi`. -/
def shift (hi : Nat) (c : α) : Nat → List α → List α
  | 0, a => a.set 0 c
  | i + 1, a => if i ≥ hi then shift hi c i (a.set (i + 1) (get a i)) else a.set (i + 1) c

/-- The insertion sort, from the element `min` on. -/
def insertion (cmp : α → α → Int) : Nat → Nat → List α → Option (List α)
  | 0, _, a => some a
  | todo + 1, min, a =>
      (scanBack cmp a min min).bind fun hi =>
        insertion cmp todo (min + 1) (if hi ≠ min then shift hi (get a min) min a else a)

def qsort (cmp : α → α → Int) (size : Nat) (a : List α) : Option (List α) :=
  let n := a.length
  if n ≤ 1 then some a
  else
    let qsz := int size
    (if n ≥ 4 then qst cmp qsz (n + 1) 0 n a else some a).bind fun a =>
      let hi := if n ≥ 4 then 4 else n
      (smallest cmp a (hi - 1) 1 0).bind fun j =>
        (if j ≠ 0 then swap a j 0 else some a).bind fun a => insertion cmp (n - 1) 1 a

end Svr42.Qsort
