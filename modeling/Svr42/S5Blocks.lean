import Mathlib.Data.List.Nodup
import Svr42.RunExec

/-! The free blocks of an S5 file system: `blkalloc` and `blkfree`. A process runs from one place where
it may sleep to the next in one step. The contents of a block are those its buffer would have. -/

namespace Svr42.S5
open Function

def NICFREE : Nat := 50

/-- `struct fblk` -/
structure Fblk where
  dfNfree : Int
  dfFree : Nat → Nat

/-- What `incore` finds of a block: no buffer, one that can be had, or one somebody is using. -/
inductive Incore where
  | no
  | idle
  | busy
  deriving DecidableEq, Repr

/-- Where a process is in `blkalloc` or `blkfree`. -/
inductive Point where
  | out
  /-- In `blkalloc`, in `sleep(&fp->s_flock, PINOD)`. -/
  | allocSleep
  /-- In `bread` of the block that holds the next part of the free list. -/
  | bread (bno : Nat)
  /-- In `delay`, as there is no space. -/
  | nospace
  /-- In `blkfree`, in `sleep(&fp->s_flock, PINOD)`. -/
  | freeSleep (bno : Nat)
  /-- In `getblk` of the block that the free list is to go to. -/
  | spill (bno : Nat)
  /-- In `getblk` of a buffer that was left of the block. -/
  | leftover (bno : Nat)
  deriving DecidableEq, Repr

/-- `sFree` goes on behind the array, as C lets it. How often a block has been taken off the free
list without having been put back is noted down in `taken`; no code reads it. -/
structure State (Proc : Type) where
  sIsize : Nat
  sFsize : Nat
  sNfree : Int
  sFree : Nat → Nat
  sFlock : Bool
  sTfree : Nat
  block : Nat → Fblk
  taken : Nat → Nat
  point : Proc → Point
  result : Proc → Option (Option Nat)

inductive Event (Proc : Type) where
  | blkalloc (p : Proc)
  | blkfree (p : Proc) (bno : Nat) (buffer : Incore)
  /-- The process goes on from where it slept; the read of a block may fail. -/
  | run (p : Proc) (buffer : Incore) (error : Bool)
  /-- The owner of a block stores something there. -/
  | write (bno : Nat) (content : Fblk)

variable {Proc : Type} [DecidableEq Proc]

def goTo (s : State Proc) (p : Proc) (point : Point) : State Proc :=
  { s with point := update s.point p point }

def badblock (s : State Proc) (bn : Nat) : Prop := bn < s.sIsize ∨ s.sFsize ≤ bn

instance (s : State Proc) (bn : Nat) : Decidable (badblock s bn) :=
  inferInstanceAs (Decidable (_ ∨ _))

/-- The loop of `blkalloc`: the first good block from the end of `s_free`, and where it stood. -/
def popFree (s : State Proc) : Nat → Option (Nat × Nat)
  | 0 => none
  | n + 1 =>
      if s.sFree n = 0 then none
      else if badblock s (s.sFree n) then popFree s n
      else some (s.sFree n, n)

def nospace (s : State Proc) (p : Proc) : State Proc :=
  goTo { s with sNfree := 0, sTfree := 0 } p .nospace

/-- `blkalloc` behind the refilling of the list -/
def handOut (s : State Proc) (p : Proc) (bno : Nat) : State Proc :=
  if s.sNfree ≤ 0 ∨ (NICFREE : Int) < s.sNfree then nospace s p
  else
    { goTo s p .out with
      sTfree := s.sTfree - 1
      result := update s.result p (some (some bno)) }

def take (s : State Proc) (bno : Nat) : State Proc :=
  { s with taken := update s.taken bno (s.taken bno + 1) }

/-- `blkalloc` once the list is not locked -/
def allocate (s : State Proc) (p : Proc) : State Proc :=
  match popFree s s.sNfree.toNat with
  | none => nospace s p
  | some (bno, 0) => goTo { take s bno with sNfree := 0, sFlock := true } p (.bread bno)
  | some (bno, n) => handOut { take s bno with sNfree := n } p bno

def copyFree (source target : Nat → Nat) : Nat → Nat :=
  fun i => if i < NICFREE then source i else target i

def toShort (n : Int) : Int := (n + 32768) % 65536 - 32768

/-- `blkalloc` once it has the block the list goes on in -/
def refill (s : State Proc) (p : Proc) (bno : Nat) (error : Bool) : State Proc :=
  handOut
    { s with
      sNfree := if error = true then s.sNfree else toShort (s.block bno).dfNfree
      sFree := if error = true then s.sFree else copyFree (s.block bno).dfFree s.sFree
      sFlock := false } p bno

/-- The end of `blkfree` -/
def putBack (s : State Proc) (p : Proc) (bno : Nat) : State Proc :=
  { goTo s p .out with
    sFree := update s.sFree s.sNfree.toNat bno
    sNfree := s.sNfree + 1
    sTfree := s.sTfree + 1
    taken := update s.taken bno (s.taken bno - 1) }

/-- `blkfree` once the list is not locked -/
def release (s : State Proc) (p : Proc) (bno : Nat) (buffer : Incore) : State Proc :=
  if badblock s bno then goTo s p .out
  else
    let s := if s.sNfree ≤ 0 then { s with sNfree := 1, sFree := update s.sFree 0 0 } else s
    if (NICFREE : Int) ≤ s.sNfree then goTo { s with sFlock := true } p (.spill bno)
    else if buffer = .busy then goTo s p (.leftover bno)
    else putBack s p bno

/-- `blkfree` once it has the buffer that the list goes to -/
def spill (s : State Proc) (p : Proc) (bno : Nat) : State Proc :=
  putBack
    { s with
      block := update s.block bno ⟨s.sNfree, copyFree s.sFree (s.block bno).dfFree⟩
      sNfree := 0
      sFlock := false } p bno

def Point.carries : Point → Option Nat
  | .bread bno => some bno
  | .freeSleep bno => some bno
  | .spill bno => some bno
  | .leftover bno => some bno
  | _ => none

def Allocated (s : State Proc) (bno : Nat) : Prop :=
  ¬ badblock s bno ∧ s.taken bno ≠ 0 ∧ ∀ p, (s.point p).carries ≠ some bno

/-- A process that sleeps for the lock goes back to sleep as long as somebody has it. -/
def proceed (s : State Proc) (p : Proc) (buffer : Incore) (error : Bool) : Option (State Proc) :=
  match s.point p with
  | .out => none
  | .allocSleep => if s.sFlock = true then none else some (allocate s p)
  | .bread bno => some (refill s p bno error)
  | .nospace => some { goTo s p .out with result := update s.result p (some none) }
  | .freeSleep bno => if s.sFlock = true then none else some (release s p bno buffer)
  | .spill bno => some (spill s p bno)
  | .leftover bno => some (putBack s p bno)

/-- The steps of the processes: they free only blocks they own. -/
inductive Step : State Proc → Event Proc → State Proc → Prop
  | blkalloc {s : State Proc} {p : Proc} (hout : s.point p = .out) :
      Step s (.blkalloc p) (if s.sFlock = true then goTo s p .allocSleep else allocate s p)
  | blkfree {s : State Proc} {p : Proc} {bno : Nat} {buffer : Incore} (hout : s.point p = .out)
      (howner : Allocated s bno) :
      Step s (.blkfree p bno buffer)
        (if s.sFlock = true then goTo s p (.freeSleep bno) else release s p bno buffer)
  | run {s t : State Proc} {p : Proc} {buffer : Incore} {error : Bool}
      (hrun : proceed s p buffer error = some t) : Step s (.run p buffer error) t
  | write {s : State Proc} {bno : Nat} {content : Fblk} (howner : Allocated s bno) :
      Step s (.write bno content) { s with block := update s.block bno content }

end Svr42.S5
