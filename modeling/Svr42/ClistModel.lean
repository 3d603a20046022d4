import Svr42.ByteCopy
import Svr42.NextList
import Svr42.RunExec

/-! Character lists: queues of bytes in blocks that are linked one after another, and the list of
free blocks. The wakeups of those that wait for a free block are left out. -/

namespace Svr42.Clst

def CLSIZE : Nat := 64

structure Cblock (Ptr : Type) where
  cNext : Option Ptr
  cFirst : Nat
  cLast : Nat
  cData : Nat → UInt8

structure Clist (Ptr : Type) where
  cCc : Int
  cCf : Option Ptr
  cCl : Option Ptr

/-- The blocks, the character lists and `cfreelist.c_next`. -/
structure Sys (L Ptr : Type) where
  block : Ptr → Cblock Ptr
  clist : L → Clist Ptr
  cfreelist : Option Ptr

variable {L Ptr : Type} [DecidableEq L] [DecidableEq Ptr]

def setBlock (s : Sys L Ptr) (bp : Ptr) (b : Cblock Ptr) : Sys L Ptr :=
  { s with block := Function.update s.block bp b }

def setClist (s : Sys L Ptr) (p : L) (cl : Clist Ptr) : Sys L Ptr :=
  { s with clist := Function.update s.clist p cl }

def setCc (s : Sys L Ptr) (p : L) (cCc : Int) : Sys L Ptr :=
  setClist s p { s.clist p with cCc := cCc }

def freeBlock (s : Sys L Ptr) (bp : Ptr) : Sys L Ptr :=
  { setBlock s bp { s.block bp with cNext := s.cfreelist } with cfreelist := some bp }

/-- `if ((p->c_cf = bp->c_next) == NULL) p->c_cl = NULL;` -/
def dropHead (s : Sys L Ptr) (p : L) (bp : Ptr) : Sys L Ptr :=
  let next := (s.block bp).cNext
  setClist s p { s.clist p with
    cCf := next
    cCl := if next = none then none else (s.clist p).cCl }

/-- A block behind the last one of the list. -/
def linkTail (s : Sys L Ptr) (p : L) (bp : Ptr) : Sys L Ptr :=
  let s :=
    match (s.clist p).cCl with
    | none => setClist s p { s.clist p with cCf := some bp }
    | some obp => setBlock s obp { s.block obp with cNext := some bp }
  setClist s p { s.clist p with cCl := some bp }

/-- A free block behind the last one of the list. -/
def newTail (s : Sys L Ptr) (p : L) : Option (Sys L Ptr × Ptr) :=
  s.cfreelist.map fun bp =>
    let s := { s with cfreelist := (s.block bp).cNext }
    let s := setBlock s bp { s.block bp with cNext := none, cFirst := 0, cLast := 0 }
    (linkTail s p bp, bp)

/-- The block of the list that has room, as `putc` and `putcbp` find it. -/
def tailBlock (s : Sys L Ptr) (p : L) : Option (Sys L Ptr × Ptr) :=
  match (s.clist p).cCl with
  | none => newTail s p
  | some bp => if (s.block bp).cLast = CLSIZE then newTail s p else some (s, bp)

/-- Bytes at the end of a block. -/
def fill (s : Sys L Ptr) (bp : Ptr) (cs : List UInt8) : Sys L Ptr :=
  let b := s.block bp
  setBlock s bp { b with
    cData := copyIn b.cData b.cLast cs
    cLast := b.cLast + cs.length }

/-! The calls. `none` as a whole is a null pointer followed. -/

/-- `none` in the result is -1. -/
def getc (s : Sys L Ptr) (p : L) : Option (Sys L Ptr × Option UInt8) :=
  if 0 < (s.clist p).cCc then
    let s := setCc s p ((s.clist p).cCc - 1)
    (s.clist p).cCf.map fun bp =>
      let b := s.block bp
      let c := b.cData b.cFirst
      let s := setBlock s bp { b with cFirst := b.cFirst + 1 }
      if b.cFirst + 1 = b.cLast then (freeBlock (dropHead s p bp) bp, some c) else (s, some c)
  else some (s, none)

/-- The result is `false` for -1. -/
def putc (s : Sys L Ptr) (c : UInt8) (p : L) : Sys L Ptr × Bool :=
  match tailBlock s p with
  | none => (s, false)
  | some (s, bp) =>
      let s := fill s bp [c]
      (setCc s p ((s.clist p).cCc + 1), true)

def getcf (s : Sys L Ptr) : Sys L Ptr × Option Ptr :=
  match s.cfreelist with
  | none => (s, none)
  | some bp =>
      let s := { s with cfreelist := (s.block bp).cNext }
      (setBlock s bp { s.block bp with cNext := none, cFirst := 0, cLast := CLSIZE }, some bp)

def putcf (s : Sys L Ptr) (bp : Ptr) : Sys L Ptr := freeBlock s bp

def getcb (s : Sys L Ptr) (p : L) : Sys L Ptr × Option Ptr :=
  match (s.clist p).cCf with
  | none => (s, none)
  | some bp =>
      let b := s.block bp
      let s := setCc s p ((s.clist p).cCc - ((b.cLast : Int) - b.cFirst))
      (dropHead s p bp, some bp)

def putcb (s : Sys L Ptr) (bp : Ptr) (p : L) : Sys L Ptr :=
  let s := linkTail s p bp
  let s := setBlock s bp { s.block bp with cNext := none }
  setCc s p ((s.clist p).cCc + (((s.block bp).cLast : Int) - (s.block bp).cFirst))

/-- The loop of `getcbp`: at most `fuel` turns, `acp` has been copied. -/
def getcbpLoop : Nat → Sys L Ptr → L → Nat → List UInt8 → Option (Sys L Ptr × List UInt8)
  | 0, _, _, _, _ => none
  | fuel + 1, s, p, n, acp =>
      if n = 0 then some (s, acp)
      else
        match (s.clist p).cCf with
        | none => some (s, acp)
        | some bp =>
            let b := s.block bp
            let on := b.cLast - b.cFirst
            if on ≤ n then
              getcbpLoop fuel (freeBlock (dropHead s p bp) bp) p (n - on)
                (acp ++ copyOut b.cData b.cFirst on)
            else
              some (setBlock s bp { b with cFirst := b.cFirst + n },
                acp ++ copyOut b.cData b.cFirst n)

def getcbp (s : Sys L Ptr) (p : L) (n : Nat) : Option (Sys L Ptr × List UInt8) :=
  (getcbpLoop (n + 1) s p n []).map fun r =>
    (setCc r.1 p ((r.1.clist p).cCc - r.2.length), r.2)

/-- The loop of `putcbp`: at most `fuel` turns, `k` bytes have been copied. -/
def putcbpLoop : Nat → Sys L Ptr → L → List UInt8 → Nat → Option (Sys L Ptr × Nat)
  | 0, _, _, _, _ => none
  | fuel + 1, s, p, cp, k =>
      if cp = [] then some (s, k)
      else
        match tailBlock s p with
        | none => some (s, k)
        | some (s, bp) =>
            let on := CLSIZE - (s.block bp).cLast
            if on ≤ cp.length then
              putcbpLoop fuel (fill s bp (cp.take on)) p (cp.drop on) (k + on)
            else some (fill s bp cp, k + cp.length)

def putcbp (s : Sys L Ptr) (p : L) (cp : List UInt8) : Option (Sys L Ptr × Nat) :=
  (putcbpLoop (cp.length + 1) s p cp 0).map fun r =>
    (setCc r.1 p ((r.1.clist p).cCc + r.2), r.2)

/-! ### Runs -/

/-- The system, and the blocks that callers have in their hands. -/
structure World (L Ptr : Type) where
  sys : Sys L Ptr
  held : Ptr → Bool

/-- A call with what it returns, or a change of a block by the caller that has it. -/
inductive Event (L Ptr : Type) where
  | getc (p : L) (r : Option UInt8)
  | putc (c : UInt8) (p : L) (ok : Bool)
  | getcf (r : Option Ptr)
  | putcf (bp : Ptr)
  | getcb (p : L) (r : Option Ptr)
  | putcb (bp : Ptr) (p : L)
  | getcbp (p : L) (n : Nat) (cp : List UInt8)
  | putcbp (p : L) (cp : List UInt8) (n : Nat)
  | edit (bp : Ptr) (b : Cblock Ptr)

def World.hold (w : World L Ptr) (bp : Option Ptr) (held : Bool) : World L Ptr :=
  match bp with
  | none => w
  | some bp => { w with held := Function.update w.held bp held }

/-- A caller puts, frees and changes blocks it has; one that is put has bytes in it. -/
inductive Step : World L Ptr → Event L Ptr → World L Ptr → Prop
  | getc {w : World L Ptr} {p : L} {s : Sys L Ptr} {r : Option UInt8} :
      Clst.getc w.sys p = some (s, r) → Step w (.getc p r) { w with sys := s }
  | putc {w : World L Ptr} {c : UInt8} {p : L} {s : Sys L Ptr} {ok : Bool} :
      Clst.putc w.sys c p = (s, ok) → Step w (.putc c p ok) { w with sys := s }
  | getcf {w : World L Ptr} {s : Sys L Ptr} {r : Option Ptr} :
      Clst.getcf w.sys = (s, r) → Step w (.getcf r) (World.hold { w with sys := s } r true)
  | putcf {w : World L Ptr} {bp : Ptr} : w.held bp = true →
      Step w (.putcf bp) (World.hold { w with sys := Clst.putcf w.sys bp } (some bp) false)
  | getcb {w : World L Ptr} {p : L} {s : Sys L Ptr} {r : Option Ptr} :
      Clst.getcb w.sys p = (s, r) → Step w (.getcb p r) (World.hold { w with sys := s } r true)
  | putcb {w : World L Ptr} {bp : Ptr} {p : L} : w.held bp = true →
      (w.sys.block bp).cFirst < (w.sys.block bp).cLast → (w.sys.block bp).cLast ≤ CLSIZE →
      Step w (.putcb bp p)
        (World.hold { w with sys := Clst.putcb w.sys bp p } (some bp) false)
  | getcbp {w : World L Ptr} {p : L} {n : Nat} {s : Sys L Ptr} {cp : List UInt8} :
      Clst.getcbp w.sys p n = some (s, cp) → Step w (.getcbp p n cp) { w with sys := s }
  | putcbp {w : World L Ptr} {p : L} {cp : List UInt8} {s : Sys L Ptr} {n : Nat} :
      Clst.putcbp w.sys p cp = some (s, n) → Step w (.putcbp p cp n) { w with sys := s }
  | edit {w : World L Ptr} {bp : Ptr} {b : Cblock Ptr} : w.held bp = true →
      Step w (.edit bp b) { w with sys := setBlock w.sys bp b }

end Svr42.Clst
