import Mathlib.Data.Set.Lattice
import Mathlib.Order.CompletePartialOrder

/-! Resource maps: `rmalloc` and `rmfree`. A map is its header entry and the entries after it; a
loop that goes past the last of these has no result. -/

namespace Svr42.Resmap

def ulong : Nat := 0x100000000

structure MapEnt where
  mSize : Nat
  mAddr : Nat
  deriving DecidableEq, Repr

/-- `mapsize`, `mapwant` and the entries from `mapstart` on. -/
structure RMap where
  mapsize : Nat
  mapwant : Nat
  slots : List MapEnt
  deriving DecidableEq, Repr

/-- `do { bp++; (bp-1)->m_addr = bp->m_addr; } while ((bp-1)->m_size = bp->m_size)` -/
def shiftUp : List MapEnt → Option (List MapEnt)
  | [] => none
  | [_] => none
  | _ :: bp :: rest =>
      if bp.mSize = 0 then some (bp :: bp :: rest) else (shiftUp (bp :: rest)).map (bp :: ·)

/-- The loop of `rmalloc`: the entries after it, the address it gives, and whether an entry has been
given up. -/
def rmallocLoop (size : Nat) : List MapEnt → Option (List MapEnt × Nat × Bool)
  | [] => none
  | bp :: rest =>
      if bp.mSize = 0 then some (bp :: rest, 0, false)
      else if size ≤ bp.mSize then
        let bp' : MapEnt := ⟨bp.mSize - size, (bp.mAddr + size) % ulong⟩
        if bp'.mSize = 0 then (shiftUp (bp' :: rest)).map fun slots => (slots, bp.mAddr, true)
        else some (bp' :: rest, bp.mAddr, false)
      else (rmallocLoop size rest).map fun r => (bp :: r.1, r.2)

def rmalloc (mp : RMap) (size : Nat) : Option (RMap × Nat) :=
  if size = 0 then some (mp, 0)
  else
    (rmallocLoop size mp.slots).map fun r =>
      ({ mp with
        mapsize := if r.2.2 = true then (mp.mapsize + 1) % ulong else mp.mapsize
        slots := r.1 }, r.2.1)

/-- `for (bp = mapstart(mp); bp->m_addr <= a && bp->m_size != 0; bp++)`: the entries before `bp`, and
from `bp` on. -/
def seek (a : Nat) : List MapEnt → Option (List MapEnt × MapEnt × List MapEnt)
  | [] => none
  | bp :: rest =>
      if bp.mAddr ≤ a ∧ bp.mSize ≠ 0 then (seek a rest).map fun r => (bp :: r.1, r.2)
      else some ([], bp, rest)

/-- `while (bp->m_size) { bp++; *(bp-1) = *bp; }` -/
def compress : List MapEnt → Option (List MapEnt)
  | [] => none
  | [bp] => if bp.mSize = 0 then some [bp] else none
  | bp :: next :: rest =>
      if bp.mSize = 0 then some (bp :: next :: rest)
      else (compress (next :: rest)).map (next :: ·)

/-- The entries shifted down by one for a new one. -/
def shiftDown (size a : Nat) : List MapEnt → Option (List MapEnt)
  | [] => none
  | bp :: rest =>
      if bp.mSize = 0 then some (⟨size, a⟩ :: rest)
      else (shiftDown bp.mSize bp.mAddr rest).map (⟨size, a⟩ :: ·)

def wakeWanters (mp : RMap) : RMap := { mp with mapwant := 0 }

/-- `a` adjoins the entry `prev` before `bp`. -/
def mergeLeft (mp : RMap) (size a : Nat) (front : List MapEnt) (prev bp : MapEnt) (rest : List MapEnt) :
    Option RMap :=
  let prev : MapEnt := { prev with mSize := (prev.mSize + size) % ulong }
  if bp.mAddr ≠ 0 ∧ (a + size) % ulong = bp.mAddr then
    let prev : MapEnt := { prev with mSize := (prev.mSize + bp.mSize) % ulong }
    (compress (bp :: rest)).map fun slots =>
      wakeWanters { mp with
        mapsize := (mp.mapsize + 1) % ulong
        slots := front ++ prev :: slots }
  else some (wakeWanters { mp with slots := front ++ prev :: bp :: rest })

/-- `a` does not adjoin an entry before `bp`. -/
def mergeRight (mp : RMap) (size a : Nat) (front : List MapEnt) (bp : MapEnt) (rest : List MapEnt) :
    Option RMap :=
  if (a + size) % ulong = bp.mAddr ∧ bp.mSize ≠ 0 then
    let bp : MapEnt := ⟨(bp.mSize + size) % ulong, (bp.mAddr + (ulong - size)) % ulong⟩
    some (wakeWanters { mp with slots := front ++ bp :: rest })
  else if mp.mapsize = 0 then some mp
  else
    (shiftDown size a (bp :: rest)).map fun slots =>
      wakeWanters { mp with mapsize := mp.mapsize - 1, slots := front ++ slots }

def rmfree (mp : RMap) (size a : Nat) : Option RMap :=
  if size = 0 then some mp
  else
    (seek a mp.slots).bind fun (front, bp, rest) =>
      match front.getLast? with
      | none => mergeRight mp size a front bp rest
      | some prev =>
          if (prev.mAddr + prev.mSize) % ulong = a then
            mergeLeft mp size a front.dropLast prev bp rest
          else mergeRight mp size a front bp rest

/-- A map of zeros after `mapinit`, with `cap` entries besides the header and the terminator. -/
def mapinit (cap : Nat) : RMap := ⟨cap, 0, List.replicate (cap + 1) ⟨0, 0⟩⟩

def run (a size : Nat) : Set Nat := Set.Ico a (a + size)

def units (slots : List MapEnt) : Set Nat := { u | ∃ bp ∈ slots, u ∈ run bp.mAddr bp.mSize }

def RMap.free (mp : RMap) : Set Nat := units mp.slots

inductive Event where
  | rmalloc (size a : Nat)
  | rmfree (size a : Nat)
  | want (n : Nat)

/-- Calls on a map. A range given to `rmfree` is not empty, does not begin at 0, lies in the address
space, and has no unit that is free. -/
inductive Step : RMap → Event → RMap → Prop
  | rmalloc {mp mp' : RMap} {size a : Nat} : size < ulong → Resmap.rmalloc mp size = some (mp', a) →
      Step mp (.rmalloc size a) mp'
  | rmfree {mp mp' : RMap} {size a : Nat} : 0 < a → 0 < size → a + size ≤ ulong →
      Disjoint (run a size) mp.free → Resmap.rmfree mp size a = some mp' →
      Step mp (.rmfree size a) mp'
  | want {mp : RMap} {n : Nat} : Step mp (.want n) { mp with mapwant := n }

end Svr42.Resmap
