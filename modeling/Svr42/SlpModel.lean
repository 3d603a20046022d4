import Svr42.DispModel

/-! Sleeping and waking: `sleep`, `unsleep`, `wakeprocs`, `setrun` and `wake_oneproc` over the
dispatcher, with which the sleep queues share `p_link`. -/

namespace Svr42.Slp
open Function

open Disp

/-- An address to sleep on; 0 is the null pointer. -/
abbrev Chan := BitVec 32

def sNWAKE : BitVec 32 := 0x00000008
def sNOSTOP : BitVec 32 := 0x00008000
def sASLEEP : BitVec 32 := 0x00020000
def sXSTART : BitVec 32 := 0x20000000
def sPSTART : BitVec 32 := 0x40000000

def PZERO : Nat := 25
def PMASK : Nat := 0x7f
def PNOSTOP : Nat := 0x200
def PR_SIGNALLED : Nat := 2

def NSLEEPQ : BitVec 32 := 64

def sqhash (chan : Chan) : Nat := (chan.sshiftRight 3 &&& (NSLEEPQ - 1)).toNat

structure Sleepq (Ptr : Type) where
  sqFirst : Option Ptr
  sqLast : Option Ptr
  deriving DecidableEq

/-- Why a process has stopped, and what `wait` is to be told. -/
structure Stopped where
  pWhystop : Nat
  pWhatstop : Nat
  pWcode : Nat
  pWdata : Nat
  deriving DecidableEq

structure Sys (Ptr : Type) where
  disp : Dispatcher Ptr
  pWchan : Ptr → Chan
  stopped : Ptr → Stopped
  pParent : Ptr → Ptr
  sleepq : Nat → Sleepq Ptr
  runin : Int
  runout : Int

/-- The swapper, and addresses that are slept on. -/
structure Kernel (Ptr : Type) where
  procSched : Ptr
  addr : Ptr → Chan
  runinAddr : Chan

variable {Ptr : Type} [DecidableEq Ptr]

def Sys.stat (s : Sys Ptr) (pp : Ptr) : Stat := (s.disp.proc pp).pStat

def Sys.flag (s : Sys Ptr) (pp : Ptr) : BitVec 32 := (s.disp.proc pp).pFlag

def setProc (s : Sys Ptr) (pp : Ptr) (p : Proc Ptr) : Sys Ptr :=
  { s with disp := { s.disp with proc := update s.disp.proc pp p } }

def setStat (s : Sys Ptr) (pp : Ptr) (pStat : Stat) : Sys Ptr :=
  setProc s pp { s.disp.proc pp with pStat := pStat }

def setFlag (s : Sys Ptr) (pp : Ptr) (pFlag : BitVec 32) : Sys Ptr :=
  setProc s pp { s.disp.proc pp with pFlag := pFlag }

def setLink (s : Sys Ptr) (pp : Ptr) (link : Option Ptr) : Sys Ptr :=
  setProc s pp { s.disp.proc pp with pLink := link }

def setWchan (s : Sys Ptr) (pp : Ptr) (chan : Chan) : Sys Ptr :=
  { s with pWchan := update s.pWchan pp chan }

def setSleepq (s : Sys Ptr) (i : Nat) (first last : Option Ptr) : Sys Ptr :=
  { s with sleepq := update s.sleepq i ⟨first, last⟩ }

/-! ### `wakeprocs` -/

/-- `*plinkp`, where `plinkp` points to the link of `rp` or to the head of the queue. -/
def plink (s : Sys Ptr) (i : Nat) : Option Ptr → Option Ptr
  | none => (s.sleepq i).sqFirst
  | some rp => s.disp.link rp

def setPlink (s : Sys Ptr) (i : Nat) (link : Option Ptr) : Option Ptr → Sys Ptr
  | none => setSleepq s i link (s.sleepq i).sqLast
  | some rp => setLink s rp link

def setLast (s : Sys Ptr) (i : Nat) (last : Option Ptr) : Sys Ptr :=
  setSleepq s i (s.sleepq i).sqFirst last

def takeOff (s : Sys Ptr) (i : Nat) (rp : Option Ptr) (pp : Ptr) : Sys Ptr :=
  setPlink (setWchan s pp 0) i (s.disp.link pp) rp

def Sys.setDisp (s : Sys Ptr) (disp : Dispatcher Ptr) : Sys Ptr := { s with disp := disp }

/-- `SRUN`, and the back of the dispatcher queue, where the functions `CL_WAKEUP` and `CL_SETRUN` of
every class put the process. -/
def ready (s : Sys Ptr) (pp : Ptr) : Sys Ptr :=
  (setStat s pp .srun).setDisp (setbackdq (setStat s pp .srun).disp pp)

/-- A process that was asleep is put on its dispatcher queue; `prmpt` is the preemptflg. -/
def rouse (s : Sys Ptr) (pp : Ptr) (prmpt : Bool) : Sys Ptr :=
  let s := if prmpt then s else s.setDisp { s.disp with npwakecnt := s.disp.npwakecnt + 1 }
  let s := ready s pp
  if s.flag pp &&& sLOAD = 0 then s
  else if (s.disp.proc pp).pPri > s.disp.curpri ∧ prmpt then
    s.setDisp { s.disp with runrun := 1 }
  else s

def wantsSched (s : Sys Ptr) (pp : Ptr) : Bool := s.flag pp &&& sLOAD = 0 ∧ s.runout > 0

/-- The loop of `wakeprocs`. The result is the state, `rp` and `runsched`. -/
def wakeLoop (i : Nat) (chan : Chan) (prmpt : Bool) :
    Nat → Option Ptr → Bool → Sys Ptr → Option (Sys Ptr × Option Ptr × Bool)
  | 0, _, _, _ => none
  | fuel + 1, rp, runsched, s =>
      match plink s i rp with
      | none => some (s, rp, runsched)
      | some pp =>
          if s.pWchan pp = chan then
            let t := takeOff s i rp pp
            if t.stat pp = .ssleep then
              let t := rouse t pp prmpt
              wakeLoop i chan prmpt fuel rp (runsched || wantsSched t pp) t
            else wakeLoop i chan prmpt fuel rp runsched t
          else wakeLoop i chan prmpt fuel (some pp) runsched s

variable [Fintype Ptr]

/-- The loop runs once for each process on the queue, and looks at its end once more. -/
def rounds (Ptr : Type) [Fintype Ptr] : Nat := Fintype.card Ptr + 1

/-- How `wakeprocs` and `wake_oneproc` end; `sched` is the call `setrun(proc_sched)`. -/
def runSched (sched : Sys Ptr → Option (Sys Ptr)) (runsched : Bool) (s : Sys Ptr) : Option (Sys Ptr) :=
  if runsched then sched { s with runout := 0 } else some s

def wakeBody (sched : Sys Ptr → Option (Sys Ptr)) (s : Sys Ptr) (chan : Chan) (prmpt : Bool) :
    Option (Sys Ptr) :=
  (wakeLoop (sqhash chan) chan prmpt (rounds Ptr) none false s).bind fun r =>
    runSched sched r.2.2 (setLast r.1 (sqhash chan) r.2.1)

/-! ### `unsleep` and `setrun` -/

/-- The search for the process does not look for the end of the queue: if it is not there, a null
pointer is followed and there is no result. -/
def unsleep (s : Sys Ptr) (pp : Ptr) : Option (Sys Ptr) :=
  if s.pWchan pp = 0 then some s
  else
    let i := sqhash (s.pWchan pp)
    (findFrom s.disp.link (fun rp => rp = pp) (Fintype.card Ptr) none (s.sleepq i).sqFirst).map
      fun r =>
        let link := s.disp.link r.2
        let last := if link = none then r.1 else (s.sleepq i).sqLast
        setWchan (setLast (setPlink s i link r.1) i last) pp 0

/-- `setrun`, once the process is off its sleep queue and not stopped. -/
def setRunning (sched : Sys Ptr → Option (Sys Ptr)) (s : Sys Ptr) (pp : Ptr) : Option (Sys Ptr) :=
  let stop := { s.stopped pp with pWhystop := 0, pWhatstop := 0 }
  let s := ready { s with stopped := update s.stopped pp stop } pp
  if s.flag pp &&& sLOAD = 0 then
    if s.runout > 0 then sched { s with runout := 0 } else some s
  else if (s.disp.proc pp).pPri > s.disp.curpri then
    some (s.setDisp { s.disp with runrun := 1 })
  else some s

/-- The body of `setrun`; `sched` is the call of itself for `proc_sched`. -/
def setrunBody (k : Kernel Ptr) (sched : Sys Ptr → Option (Sys Ptr)) (s : Sys Ptr) (pp : Ptr) :
    Option (Sys Ptr) :=
  match s.stat pp with
  | .srun => some s
  | .ssleep => (unsleep s pp).bind fun s => setRunning sched s pp
  | .sstop =>
      (unsleep s pp).bind fun s =>
        if s.flag pp &&& (sXSTART ||| sPSTART) ≠ sXSTART ||| sPSTART then
          if s.flag pp &&& sPSTART ≠ 0 ∧ (s.stopped pp).pWhystop = PR_SIGNALLED then
            wakeBody sched s (k.addr (s.pParent pp)) true
          else some s
        else
          let stop := { s.stopped pp with pWcode := 0, pWdata := 0 }
          setRunning sched { s with stopped := update s.stopped pp stop } pp
  | _ => setRunning sched s pp

def setrunTo (k : Kernel Ptr) : Nat → Sys Ptr → Ptr → Option (Sys Ptr)
  | 0, _, _ => none
  | depth + 1, s, pp => setrunBody k (fun t => setrunTo k depth t k.procSched) s pp

/-- It calls itself with `runout` set to 0 only, and not if it is 0 already. -/
def setrun (k : Kernel Ptr) (s : Sys Ptr) (pp : Ptr) : Option (Sys Ptr) := setrunTo k 2 s pp

def wakeprocs (k : Kernel Ptr) (s : Sys Ptr) (chan : Chan) (prmpt : Bool) : Option (Sys Ptr) :=
  wakeBody (fun t => setrun k t k.procSched) s chan prmpt

/-- The loop of `wake_oneproc`. The result is the state and `runsched`. -/
def oneLoop (i : Nat) (chan : Chan) (prmpt : Bool) : Nat → Option Ptr → Sys Ptr → Option (Sys Ptr × Bool)
  | 0, _, _ => none
  | fuel + 1, rp, s =>
      match plink s i rp with
      | none => some (s, false)
      | some pp =>
          if s.pWchan pp = chan then
            let t := takeOff s i rp pp
            let t := if plink t i rp = none then setLast t i rp else t
            if t.stat pp = .ssleep then
              let t := rouse t pp prmpt
              some (t, wantsSched t pp)
            else oneLoop i chan prmpt fuel rp t
          else oneLoop i chan prmpt fuel (some pp) s

def wakeOneproc (k : Kernel Ptr) (s : Sys Ptr) (chan : Chan) (prmpt : Bool) : Option (Sys Ptr) :=
  (oneLoop (sqhash chan) chan prmpt (rounds Ptr) none s).bind fun r =>
    runSched (fun t => setrun k t k.procSched) r.2 r.1

/-! ### `sleep`, in the parts between which other processes run -/

/-- The flags a process sleeps with: `disp` says whether a signal may disturb it, and whether it may
be stopped. -/
def sleepFlags (pFlag : BitVec 32) (disp : Nat) : BitVec 32 :=
  if disp &&& PMASK > PZERO then
    let pFlag := pFlag &&& ~~~(sNWAKE ||| sNOSTOP)
    let pFlag := if disp &&& PNOSTOP ≠ 0 then pFlag ||| sNOSTOP else pFlag
    pFlag ||| sASLEEP
  else pFlag ||| sNWAKE

/-- The process goes to the back of its sleep queue. -/
def sleepOn (s : Sys Ptr) (pp : Ptr) (chan : Chan) : Option (Sys Ptr) :=
  let s := setWchan (setStat s pp .ssleep) pp chan
  let i := sqhash chan
  match (s.sleepq i).sqFirst, (s.sleepq i).sqLast with
  | none, _ => some (setLink (setSleepq s i (some pp) (some pp)) pp none)
  | some _, none => none
  | some first, some last =>
      some (setLink (setSleepq (setLink s last (some pp)) i (some first) (some pp)) pp none)

def sleep (s : Sys Ptr) (pp : Ptr) (chan : Chan) (disp : Nat) : Option (Sys Ptr) :=
  (sleepOn s pp chan).map fun t => setFlag t pp (sleepFlags (t.flag pp) disp)

/-- Before it gives up the processor: a signal is pending or the system call is to be aborted. -/
def interrupted (s : Sys Ptr) (pp : Ptr) : Option (Sys Ptr) :=
  let done (t : Sys Ptr) : Sys Ptr := setFlag t pp (t.flag pp &&& ~~~(sNOSTOP ||| sASLEEP))
  if s.stat pp = .ssleep then
    (unsleep s pp).map fun t => done (setStat t pp .sonproc)
  else some (done s)

/-- Or it is still to sleep: `CL_SLEEP` gives it the priority `pri`, and it gives up the
processor. -/
def giveUp (k : Kernel Ptr) (s : Sys Ptr) (pp : Ptr) (disp pri : Nat) : Option (Sys Ptr) :=
  let rest (t : Sys Ptr) : Sys Ptr := setProc t pp { t.disp.proc pp with pPri := pri }
  if disp &&& PMASK > PZERO then
    if s.pWchan pp = 0 then
      some (setFlag s pp (s.flag pp &&& ~~~(sNWAKE ||| sNOSTOP ||| sASLEEP)))
    else
      (if s.runin ≠ 0 then wakeprocs k { s with runin := 0 } k.runinAddr true else some s).map
        fun t => rest (setFlag t pp (t.flag pp &&& ~~~sASLEEP))
  else some (rest s)

def resumed (s : Sys Ptr) (pp : Ptr) : Sys Ptr :=
  setFlag s pp (s.flag pp &&& ~~~(sNWAKE ||| sNOSTOP ||| sASLEEP))

end Svr42.Slp
