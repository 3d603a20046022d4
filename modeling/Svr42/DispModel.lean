import Svr42.BitmapWords
import Svr42.NextList
import Svr42.RunExec

/-! The dispatcher: `setbackdq`, `setfrontdq`, `dispdeq`, `dq_sruninc`, `dq_srundec` and `pswtch`. -/

namespace Svr42.Disp
open Function

open Bitmap

def sSYS : BitVec 32 := 0x00000001
def sLOAD : BitVec 32 := 0x00000010
def sPROCIO : BitVec 32 := 0x00000400

def Schedulable (pFlag : BitVec 32) : Prop :=
  pFlag &&& (sLOAD ||| sPROCIO) = sLOAD ∨ pFlag &&& sSYS ≠ 0

instance (pFlag : BitVec 32) : Decidable (Schedulable pFlag) :=
  inferInstanceAs (Decidable (_ ∨ _))

inductive Stat where
  | ssleep | srun | szomb | sstop | sidl | sonproc | sxbrk
  deriving DecidableEq, Repr

structure Proc (Ptr : Type) where
  pLink : Option Ptr
  pPri : Nat
  pFlag : BitVec 32
  pStat : Stat
  deriving DecidableEq, Repr

structure Dispq (Ptr : Type) where
  dqFirst : Option Ptr
  dqLast : Option Ptr
  dqSruncnt : Int
  deriving DecidableEq, Repr

structure Dispatcher (Ptr : Type) where
  proc : Ptr → Proc Ptr
  dispq : Nat → Dispq Ptr
  dqactmap : Words
  srunprocs : Int
  maxrunpri : Int
  curproc : Ptr
  oldCurproc : Ptr
  oldproc : Option Ptr
  curpri : Nat
  runrun : Int
  kprunrun : Int
  npwakecnt : Int

/-- `dispinit`, once the classes have said how many priorities there are. -/
def dispinit {Ptr : Type} (s : Dispatcher Ptr) : Dispatcher Ptr :=
  { s with
    dispq := fun _ => ⟨none, none, 0⟩
    dqactmap := fun _ => 0
    srunprocs := 0
    maxrunpri := -1 }

variable {Ptr : Type} [DecidableEq Ptr]

def Dispatcher.link (s : Dispatcher Ptr) (pp : Ptr) : Option Ptr := (s.proc pp).pLink

def setLink (s : Dispatcher Ptr) (pp : Ptr) (link : Option Ptr) : Dispatcher Ptr :=
  { s with proc := update s.proc pp { s.proc pp with pLink := link } }

def setEnds (s : Dispatcher Ptr) (pri : Nat) (first last : Option Ptr) : Dispatcher Ptr :=
  { s with
    dispq := update s.dispq pri { s.dispq pri with dqFirst := first, dqLast := last } }

/-! ### The counts -/

/-- `setbackdq` and `setfrontdq` do the same when the process is schedulable. -/
def dqSruninc (s : Dispatcher Ptr) (pri : Nat) : Dispatcher Ptr :=
  let cnt := (s.dispq pri).dqSruncnt + 1
  let t := { s with
    srunprocs := s.srunprocs + 1
    dispq := update s.dispq pri { s.dispq pri with dqSruncnt := cnt } }
  if cnt = 1 then
    { t with
      dqactmap := btSet s.dqactmap pri
      maxrunpri := if s.maxrunpri < pri then pri else s.maxrunpri }
  else t

/-- `dispdeq` does the same when the process is schedulable. -/
def dqSrundec (s : Dispatcher Ptr) (pri : Nat) : Dispatcher Ptr :=
  let cnt := (s.dispq pri).dqSruncnt - 1
  let t := { s with
    srunprocs := s.srunprocs - 1
    dispq := update s.dispq pri { s.dispq pri with dqSruncnt := cnt } }
  if cnt = 0 then
    { t with
      dqactmap := btClear s.dqactmap pri
      maxrunpri :=
        if s.srunprocs - 1 = 0 then -1
        else if pri = s.maxrunpri then
          btGethighbit (btClear s.dqactmap pri) (s.maxrunpri.toNat >>> 5)
        else s.maxrunpri }
  else t

/-! ### The queues -/

def linkBack (s : Dispatcher Ptr) (pp : Ptr) (pri : Nat) : Dispatcher Ptr :=
  match (s.dispq pri).dqLast with
  | none => setEnds (setLink s pp none) pri (some pp) (some pp)
  | some last =>
      setEnds (setLink (setLink s pp none) last (some pp)) pri (s.dispq pri).dqFirst (some pp)

def linkFront (s : Dispatcher Ptr) (pp : Ptr) (pri : Nat) : Dispatcher Ptr :=
  match (s.dispq pri).dqFirst with
  | none => setEnds (setLink s pp none) pri (some pp) (some pp)
  | some first =>
      setEnds (setLink s pp (some first)) pri (some pp) (s.dispq pri).dqLast

def setbackdq (s : Dispatcher Ptr) (pp : Ptr) : Dispatcher Ptr :=
  if Schedulable (s.proc pp).pFlag then
    dqSruninc (linkBack s pp (s.proc pp).pPri) (s.proc pp).pPri
  else linkBack s pp (s.proc pp).pPri

def setfrontdq (s : Dispatcher Ptr) (pp : Ptr) : Dispatcher Ptr :=
  if Schedulable (s.proc pp).pFlag then
    dqSruninc (linkFront s pp (s.proc pp).pPri) (s.proc pp).pPri
  else linkFront s pp (s.proc pp).pPri

/-- Remove `pp`, which is behind `prp` or first, from the queue of `pri`. -/
def unlink (s : Dispatcher Ptr) (pri : Nat) (prp : Option Ptr) (pp : Ptr) : Dispatcher Ptr :=
  match prp with
  | none =>
      setEnds s pri (s.link pp) (if s.link pp = none then none else (s.dispq pri).dqLast)
  | some prp =>
      setEnds (setLink s prp (s.link pp)) pri (s.dispq pri).dqFirst
        (if s.link pp = none then some prp else (s.dispq pri).dqLast)

variable [Fintype Ptr]

/-- The result tells whether the process was found. -/
def dispdeq (s : Dispatcher Ptr) (pp : Ptr) : Bool × Dispatcher Ptr :=
  let ppri := (s.proc pp).pPri
  match findFrom s.link (fun rp => rp = pp) (Fintype.card Ptr) none (s.dispq ppri).dqFirst with
  | none => (false, s)
  | some (prp, rp) =>
      if Schedulable (s.proc rp).pFlag then (true, dqSrundec (unlink s ppri prp rp) ppri)
      else (true, unlink s ppri prp rp)

/-! ### `pswtch` -/

/-- What `pswtch` does first. -/
def enter (s : Dispatcher Ptr) : Dispatcher Ptr :=
  let pp := s.curproc
  match (s.proc pp).pStat with
  | .szomb => { s with oldCurproc := pp, oldproc := some pp }
  | .sonproc =>
      { s with
        oldCurproc := pp
        proc := update s.proc pp { s.proc pp with pStat := .srun } }
  | _ => { s with oldCurproc := pp }

def idle (procSched : Ptr) (s : Dispatcher Ptr) : Dispatcher Ptr :=
  { s with curpri := 0, curproc := procSched }

/-- The counts, when a process has been taken from the queue of `maxrunpri`. -/
def uncount (s : Dispatcher Ptr) (pri : Nat) : Dispatcher Ptr :=
  let cnt := (s.dispq pri).dqSruncnt - 1
  let t := { s with
    srunprocs := s.srunprocs - 1
    dispq := update s.dispq pri { s.dispq pri with dqSruncnt := cnt } }
  if cnt = 0 then
    { t with
      dqactmap := btClear s.dqactmap pri
      maxrunpri :=
        if s.srunprocs - 1 = 0 then -1
        else btGethighbit (btClear s.dqactmap pri) (pri >>> 5) }
  else t

/-- `pp` is the process that will be running. -/
def onproc (s : Dispatcher Ptr) (pp : Ptr) : Dispatcher Ptr :=
  { s with
    proc := update s.proc pp { s.proc pp with pStat := .sonproc }
    curpri := (s.proc pp).pPri
    curproc := pp
    runrun := 0
    kprunrun := 0
    npwakecnt := 0 }

/-- The rest, once `maxrunpri` is not -1: the queue is walked to a process that can run. A walk off
its end would follow a null pointer. -/
def dispatch (s : Dispatcher Ptr) : Option (Dispatcher Ptr) :=
  let pri := s.maxrunpri.toNat
  match findFrom s.link (fun pp => Schedulable (s.proc pp).pFlag) (Fintype.card Ptr) none
      (s.dispq pri).dqFirst with
  | none => none
  | some (rp, pp) => some (onproc (uncount (unlink s pri rp pp) pri) pp)

/-! ### Steps -/

def OnQueue (s : Dispatcher Ptr) (pp : Ptr) : Prop :=
  ∃ pri, pp ∈ chain s.link (Fintype.card Ptr) (s.dispq pri).dqFirst

inductive Event (Ptr : Type) where
  | setbackdq (pp : Ptr)
  | setfrontdq (pp : Ptr)
  | dispdeq (pp : Ptr) (found : Bool)
  | sruninc (pp : Ptr) (pFlag : BitVec 32)
  | srundec (pp : Ptr) (pFlag : BitVec 32)
  | flags (pp : Ptr) (pFlag : BitVec 32) (pStat : Stat)
  | other (pp : Ptr) (p : Proc Ptr)
  | enter
  | idle
  | dispatch (pp : Ptr)

def setFlag (s : Dispatcher Ptr) (pp : Ptr) (pFlag : BitVec 32) : Dispatcher Ptr :=
  { s with proc := update s.proc pp { s.proc pp with pFlag := pFlag } }

/-- Calls as the callers make them. A process is put on a queue when it is on none; while it is on
one its priority and its link stay, and its flags change with the count if they have to; off the
queues a process may change in any way. -/
inductive Step (nglobpris : Nat) (procSched : Ptr) :
    Dispatcher Ptr → Event Ptr → Dispatcher Ptr → Prop
  | setbackdq {s : Dispatcher Ptr} {pp : Ptr} : ¬ OnQueue s pp → (s.proc pp).pPri < nglobpris →
      Step nglobpris procSched s (.setbackdq pp) (setbackdq s pp)
  | setfrontdq {s : Dispatcher Ptr} {pp : Ptr} : ¬ OnQueue s pp → (s.proc pp).pPri < nglobpris →
      Step nglobpris procSched s (.setfrontdq pp) (setfrontdq s pp)
  | dispdeq {s : Dispatcher Ptr} {pp : Ptr} : (s.proc pp).pPri < nglobpris →
      Step nglobpris procSched s (.dispdeq pp (dispdeq s pp).1) (dispdeq s pp).2
  | sruninc {s : Dispatcher Ptr} {pp : Ptr} {pFlag : BitVec 32} : OnQueue s pp →
      ¬ Schedulable (s.proc pp).pFlag → Schedulable pFlag →
      Step nglobpris procSched s (.sruninc pp pFlag)
        (dqSruninc (setFlag s pp pFlag) (s.proc pp).pPri)
  | srundec {s : Dispatcher Ptr} {pp : Ptr} {pFlag : BitVec 32} : OnQueue s pp →
      Schedulable (s.proc pp).pFlag → ¬ Schedulable pFlag →
      Step nglobpris procSched s (.srundec pp pFlag)
        (dqSrundec (setFlag s pp pFlag) (s.proc pp).pPri)
  | flags {s : Dispatcher Ptr} {pp : Ptr} {pFlag : BitVec 32} {pStat : Stat} :
      (Schedulable pFlag ↔ Schedulable (s.proc pp).pFlag) →
      Step nglobpris procSched s (.flags pp pFlag pStat)
        { s with
          proc := update s.proc pp { s.proc pp with pFlag := pFlag, pStat := pStat } }
  | other {s : Dispatcher Ptr} {pp : Ptr} {p : Proc Ptr} : ¬ OnQueue s pp →
      Step nglobpris procSched s (.other pp p) { s with proc := update s.proc pp p }
  | enter {s : Dispatcher Ptr} : Step nglobpris procSched s .enter (enter s)
  | idle {s : Dispatcher Ptr} : s.maxrunpri = -1 →
      Step nglobpris procSched s .idle (idle procSched s)
  | dispatch {s s' : Dispatcher Ptr} : s.maxrunpri ≠ -1 → dispatch s = some s' →
      Step nglobpris procSched s (.dispatch s'.curproc) s'

end Svr42.Disp
