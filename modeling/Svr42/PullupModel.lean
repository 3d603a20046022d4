import Svr42.ByteCopy
import Svr42.NextList

/-! Messages as chains of blocks, and `pullupmsg`. Bands and flags, and what ties a message block to
the data block that was allocated with it, are left out. -/

namespace Svr42.Pull
open Function

def FASTBUF : Nat := 64

structure Msgb (M D : Type) where
  bCont : Option M
  bRptr : Nat
  bWptr : Nat
  bDatap : D

/-- `dbData` is what the buffer has at an address. -/
structure Datab where
  dbRef : Nat
  dbType : UInt8
  dbBase : Nat
  dbLim : Nat
  dbData : Nat → UInt8

structure Sys (M D : Type) where
  msg : M → Msgb M D
  data : D → Datab
  inUse : M → Bool

/-- What memory there is: a data block with its internal buffer, buffers of any size, and what was
in them before. -/
structure Avail (D : Type) where
  mdbblock : Option (D × Nat)
  kmem : Nat → Option Nat
  bytes : Nat → UInt8

variable {M D : Type} [DecidableEq M] [DecidableEq D]

def setMsg (s : Sys M D) (mp : M) (b : Msgb M D) : Sys M D :=
  { s with msg := update s.msg mp b }

def setData (s : Sys M D) (d : D) (db : Datab) : Sys M D :=
  { s with data := update s.data d db }

def size (b : Msgb M D) : Nat := b.bWptr - b.bRptr

def dbType (s : Sys M D) (bp : M) : UInt8 := (s.data (s.msg bp).bDatap).dbType

def strAligned (a : Nat) : Prop := a % 4 = 0

instance (a : Nat) : Decidable (strAligned a) := inferInstanceAs (Decidable (a % 4 = 0))

def kmemAlloc (avail : Avail D) (size : Nat) : Option Nat :=
  if size = 0 then none else avail.kmem size

/-- The data block of the new message block; M_DATA is 0. -/
def allocb (avail : Avail D) (size : Nat) : Option (D × Datab) :=
  avail.mdbblock.bind fun mdb =>
    if FASTBUF < size then
      (kmemAlloc avail size).map fun buf =>
        (mdb.1, { dbRef := 1, dbType := 0, dbBase := buf, dbLim := buf + size, dbData := avail.bytes })
    else
      some (mdb.1, { dbRef := 1, dbType := 0, dbBase := mdb.2, dbLim := mdb.2 + FASTBUF,
                     dbData := avail.bytes })

def freeb (s : Sys M D) (bp : M) : Sys M D :=
  let dbp := (s.msg bp).bDatap
  { setData s dbp { s.data dbp with dbRef := (s.data dbp).dbRef - 1 } with
    inUse := update s.inUse bp false }

/-- The loop of `xmsgsize` from the head; `fuel` bounds the number of blocks. -/
def xmsgsizeLoop : Nat → Sys M D → UInt8 → Option M → Nat → Option Nat
  | 0, _, _, _, _ => none
  | _ + 1, _, _, none, count => some count
  | fuel + 1, s, type, some bp, count =>
      if type ≠ dbType s bp then some count
      else xmsgsizeLoop fuel s type (s.msg bp).bCont (count + size (s.msg bp))

def xmsgsize (fuel : Nat) (s : Sys M D) (mp : M) : Option Nat :=
  xmsgsizeLoop fuel s (dbType s mp) (some mp) 0

/-- What is left to be done after the special cases. -/
inductive Special where
  | ret (r : Bool)
  | pull (len : Nat)

def special (fuel : Nat) (s : Sys M D) (mp : M) (len : Int) : Option Special :=
  let b := s.msg mp
  if len = -1 then
    if b.bCont = none then
      if strAligned b.bRptr then some (.ret true) else some (.pull (size b))
    else (xmsgsize fuel s mp).map .pull
  else if len ≤ size b then
    if strAligned b.bRptr then some (.ret true) else some (.pull (size b))
  else
    (xmsgsize fuel s mp).map fun (n : Nat) =>
      if (n : Int) < len then .ret false else .pull len.toNat

/-- The loop that copies, from `bp` on: the block where it stops, and what is in the new buffer.
`fuel` bounds the number of blocks. -/
def pullLoop : Nat → Sys M D → M → Nat → Option M → List UInt8 → Option (Sys M D × Option M × List UInt8)
  | 0, _, _, _, _, _ => none
  | _ + 1, s, _, _, none, out => some (s, none, out)
  | fuel + 1, s, mp, len, some bp, out =>
      if len = 0 then some (s, some bp, out)
      else
        let b := s.msg bp
        let n := min (size b) len
        let out := out ++ copyOut (s.data b.bDatap).dbData b.bRptr n
        let s := setMsg s bp { b with bRptr := b.bRptr + n }
        if b.bWptr ≠ b.bRptr + n then some (s, some bp, out)
        else
          let s := if bp ≠ mp then freeb s bp else s
          pullLoop fuel s mp (len - n) b.bCont out

def unshare (s : Sys M D) (dbp newdb : D) (db : Datab) : Sys M D :=
  let s := setData s newdb { db with dbType := (s.data dbp).dbType }
  setData s dbp { s.data dbp with dbRef := (s.data dbp).dbRef - 1 }

def newData (s : Sys M D) (mp : M) (newdb : D) (r : Option M × List UInt8) : Sys M D :=
  let db := s.data newdb
  let s := setData s newdb { db with dbData := copyIn db.dbData db.dbBase r.2 }
  setMsg s mp { bCont := r.1, bRptr := db.dbBase, bWptr := db.dbBase + r.2.length, bDatap := newdb }

/-- The data block of the first block gets a new buffer. -/
def newBuffer (s : Sys M D) (mp : M) (newbuf len : Nat) (bytes : Nat → UInt8)
    (r : Option M × List UInt8) : Sys M D :=
  let dbp := (s.msg mp).bDatap
  let s := setData s dbp { s.data dbp with
    dbBase := newbuf
    dbLim := newbuf + len
    dbData := copyIn bytes newbuf r.2 }
  setMsg s mp { bCont := r.1, bRptr := newbuf, bWptr := newbuf + r.2.length, bDatap := dbp }

/-- What is done after the special cases. -/
def pullup (avail : Avail D) (fuel : Nat) (s : Sys M D) (mp : M) (len : Nat) : Option (Sys M D × Bool) :=
  let dbp := (s.msg mp).bDatap
  if 1 < (s.data dbp).dbRef then
    match allocb avail len with
    | none => some (s, false)
    | some (newdb, db) =>
        (pullLoop fuel (unshare s dbp newdb db) mp len (some mp) []).map fun r =>
          (newData r.1 mp newdb r.2, true)
  else
    match kmemAlloc avail len with
    | none => some (s, false)
    | some newbuf =>
        (pullLoop fuel s mp len (some mp) []).map fun r =>
          (newBuffer r.1 mp newbuf len avail.bytes r.2, true)

def pullupmsg (avail : Avail D) (fuel : Nat) (s : Sys M D) (mp : M) (len : Int) :
    Option (Sys M D × Bool) :=
  (special fuel s mp len).bind fun todo =>
    match todo with
    | .ret r => some (s, r)
    | .pull len => pullup avail fuel s mp len

end Svr42.Pull
