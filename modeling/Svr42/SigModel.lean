import Svr42.SlpModel

/-! Signals: what is pending for a process, the queue of their siginfos, and `issig`, which makes one
of them the current signal. What they do to a process that sleeps or has stopped is done by `setrun`
and `unsleep`. -/

namespace Svr42.Sig
open Function

open Disp Slp

def SIGKILL : Int := 9
def SIGCLD : Int := 18
def SIGSTOP : Int := 23
def SIGTSTP : Int := 24
def SIGCONT : Int := 25
def SIGTTIN : Int := 26
def SIGTTOU : Int := 27
def NSIG : Int := 32

def SIG_DFL : BitVec 32 := 0

def sTRC : BitVec 32 := 0x00000002
def sPRSTOP : BitVec 32 := 0x00000100
def sPTRX : BitVec 32 := 0x00010000
def sJCTL : BitVec 32 := 0x01000000
def sVFORK : BitVec 32 := 0x04000000

def PR_REQUESTED : Nat := 1
def PR_JOBCONTROL : Nat := 5

def CLD_EXITED : Nat := 1
def CLD_KILLED : Nat := 2
def CLD_DUMPED : Nat := 3
def CLD_TRAPPED : Nat := 4
def CLD_STOPPED : Nat := 5
def CLD_CONTINUED : Nat := 6

/-- A `k_sigset_t`. -/
abbrev Sigset := BitVec 32

def sigmask (n : Int) : Sigset := 1 <<< (n - 1).toNat

def sigaddset (s : Sigset) (n : Int) : Sigset := s ||| sigmask n

def sigdelset (s : Sigset) (n : Int) : Sigset := s &&& ~~~sigmask n

def sigismember (s : Sigset) (n : Int) : Bool := sigmask n &&& s ≠ 0

def sigdiffset (s₁ s₂ : Sigset) : Sigset := s₁ &&& ~~~s₂

def stopdefault : Sigset :=
  sigmask SIGSTOP ||| sigmask SIGTSTP ||| sigmask SIGTTOU ||| sigmask SIGTTIN

def holdvfork : Sigset := sigmask SIGTTOU ||| sigmask SIGTTIN ||| sigmask SIGTSTP

/-! ### The signals of a process -/

structure Siginfo where
  siSigno : Int
  siCode : Int
  deriving DecidableEq

structure Sigs where
  pSig : Sigset
  pHold : Sigset
  pIgnore : Sigset
  pSigmask : Sigset
  pCursig : Int
  pCurinfo : Option Siginfo
  pSigqueue : List Siginfo
  /-- `u_signal` of each signal, from 1 on. -/
  uSignal : Int → BitVec 32
  uSigevpend : Bool
  pDetached : Bool
  pTrace : Option Chan
  pPpid : Int

inductive Why where
  | forreal | justlooking
  deriving DecidableEq

/-- Where a process is in `issig`. -/
inductive Point where
  /-- It is not there, or it was and this was returned. -/
  | out (ret : Int)
  | top
  | current
  /-- `isjobstop` after the stop. -/
  | continued
  /-- The current signal is ignored or has stopped the process. -/
  | discard
  | pending
  /-- The loop while the process is traced, and after the stop in it. -/
  | traced (sig : Int) (firststop : Bool)
  | trapped (sig : Int)
  | released
  deriving DecidableEq

structure Sys (Ptr : Type) where
  slp : Slp.Sys Ptr
  sigs : Ptr → Sigs
  why : Ptr → Why
  point : Ptr → Point

def sigdelq (g : Sigs) (sig : Int) : Sigs :=
  { g with pSigqueue := g.pSigqueue.filter fun sqp => ¬ (sig = 0 ∨ sqp.siSigno = sig) }

/-- Takes the first siginfo of a signal off the queue; the signal is pending again if there is
another. -/
def sigdeq (g : Sigs) (sig : Int) : Option Siginfo × Sigs :=
  match g.pSigqueue.dropWhile fun sqp => sqp.siSigno ≠ sig with
  | [] => (none, g)
  | sqp :: rest =>
      let queue := (g.pSigqueue.takeWhile fun sqp => sqp.siSigno ≠ sig) ++ rest
      (some sqp, { g with
        pSigqueue := queue
        pSig := if rest.any fun sqp => sqp.siSigno = sig then sigaddset g.pSig sig else g.pSig })

def promote (g : Sigs) (sig : Int) : Sigs :=
  let r := sigdeq { g with pSig := sigdelset g.pSig sig, pCursig := sig } sig
  { r.2 with pCurinfo := r.1 }

def delqPending (g : Sigs) (sig : Int) : Sigs :=
  if g.pSig &&& sigmask sig ≠ 0 then sigdelq g sig else g

/-- A stop signal and `SIGCONT` take each other away. -/
def cancel (g : Sigs) (sig : Int) : Sigs :=
  if sig = SIGCONT then
    let g := delqPending (delqPending (delqPending (delqPending g SIGSTOP) SIGTSTP) SIGTTOU) SIGTTIN
    { g with pSig := sigdiffset g.pSig stopdefault }
  else if sigismember stopdefault sig then
    let g := sigdelq g SIGCONT
    { g with pSig := sigdelset g.pSig SIGCONT }
  else g

/-- The unheld pending signal to take next, 0 if there is none. -/
def fsig (g : Sigs) (pFlag : BitVec 32) : Int :=
  let temp := sigdiffset g.pSig g.pHold
  let temp := if pFlag &&& sVFORK ≠ 0 then sigdiffset temp holdvfork else temp
  if temp ≠ 0 then
    if sigismember temp SIGKILL then SIGKILL
    else (((List.range 31).map fun i : Nat => (i : Int) + 1).find? fun i => sigismember temp i).getD 0
  else 0

variable {Ptr : Type} [DecidableEq Ptr]

def setSigs (s : Sys Ptr) (p : Ptr) (g : Sigs) : Sys Ptr :=
  { s with sigs := update s.sigs p g }

def setPoint (s : Sys Ptr) (p : Ptr) (point : Point) : Sys Ptr :=
  { s with point := update s.point p point }

def setFlag (s : Sys Ptr) (p : Ptr) (pFlag : BitVec 32) : Sys Ptr :=
  { s with slp := Slp.setFlag s.slp p pFlag }

def setStopped (s : Sys Ptr) (p : Ptr) (stopped : Stopped) : Sys Ptr :=
  { s with slp := { s.slp with stopped := update s.slp.stopped p stopped } }

def tracing (s : Sys Ptr) (p : Ptr) (sig : Int) : Bool :=
  s.slp.flag p &&& sTRC ≠ 0 || sigismember (s.sigs p).pSigmask sig

def ignored (s : Sys Ptr) (p : Ptr) (sig : Int) : Bool := sigismember (s.sigs p).pIgnore sig

variable [Fintype Ptr]

def Sys.calls (s : Sys Ptr) (slp : Option (Slp.Sys Ptr)) : Option (Sys Ptr) :=
  slp.map fun slp => { s with slp := slp }

/-- The process is told of a signal that has been posted. -/
def notify (k : Kernel Ptr) (s : Sys Ptr) (p : Ptr) (sig : Int) : Option (Sys Ptr) :=
  if s.slp.stat p = .ssleep then
    if s.slp.flag p &&& sNWAKE ≠ 0 ∨ sigismember (s.sigs p).pHold sig then some s
    else s.calls (setrun k s.slp p)
  else if s.slp.stat p = .sstop then
    if sig = SIGKILL then
      s.calls (setrun k (Slp.setFlag s.slp p (s.slp.flag p ||| (sXSTART ||| sPSTART))) p)
    else if s.slp.pWchan p ≠ 0 ∧ s.slp.flag p &&& sNWAKE = 0 then s.calls (unsleep s.slp p)
    else some s
  else if p = s.slp.disp.curproc then some (setSigs s p { s.sigs p with uSigevpend := true })
  else some s

/-- `SIGCONT` sets a process running that job control has stopped. -/
def jobCont (k : Kernel Ptr) (s : Sys Ptr) (p : Ptr) (sig : Int) : Option (Sys Ptr) :=
  if sig = SIGCONT ∧ s.slp.stat p = .sstop ∧ (s.slp.stopped p).pWhystop = PR_JOBCONTROL then
    s.calls (setrun k (Slp.setFlag s.slp p (s.slp.flag p ||| sXSTART)) p)
  else some s

/-- `fromuser` is not looked at. -/
def sigtoproc (k : Kernel Ptr) (s : Sys Ptr) (p : Ptr) (sig : Int) (_fromuser : Bool) :
    Option (Sys Ptr) :=
  if sig ≤ 0 ∨ sig ≥ NSIG then some s
  else
    (jobCont k (setSigs s p (cancel (s.sigs p) sig)) p sig).bind fun s =>
      if ¬ tracing s p sig ∧ ignored s p sig then some s
      else notify k (setSigs s p { s.sigs p with pSig := sigaddset (s.sigs p).pSig sig }) p sig

def psignal (k : Kernel Ptr) (s : Sys Ptr) (p : Ptr) (sig : Int) : Option (Sys Ptr) :=
  sigtoproc k s p sig false

/-- `mem` says whether there was memory for the siginfo. -/
def sigaddq (k : Kernel Ptr) (s : Sys Ptr) (p : Ptr) (info : Siginfo) (mem : Bool) : Option (Sys Ptr) :=
  let sig := info.siSigno
  if mem ∧ ¬ (¬ tracing s p sig ∧ ignored s p sig) then
    if (s.sigs p).pSigqueue.any fun sqp => sqp.siSigno = sig then some s
    else
      let queue := (s.sigs p).pSigqueue ++ [info]
      sigtoproc k (setSigs s p { s.sigs p with pSigqueue := queue }) p sig (info.siCode ≤ 0)
  else sigtoproc k s p sig (info.siCode ≤ 0)

/-- The parent is told that its child has stopped, goes on or is gone. -/
def sigcld (k : Kernel Ptr) (s : Sys Ptr) (cp : Ptr) : Option (Sys Ptr) :=
  let pp := s.slp.pParent cp
  let wcode := (s.slp.stopped cp).pWcode
  let wake : Option (Sys Ptr) :=
    s.calls ((wakeprocs k s.slp (k.addr cp) true).bind fun slp => wakeprocs k slp (k.addr pp) true)
  let send (s : Sys Ptr) : Option (Sys Ptr) := sigaddq k s pp ⟨SIGCLD, wcode⟩ true
  if wcode = CLD_EXITED ∨ wcode = CLD_DUMPED ∨ wcode = CLD_KILLED then wake.bind send
  else if wcode = CLD_STOPPED ∨ wcode = CLD_CONTINUED then
    wake.bind fun s => if s.slp.flag pp &&& sJCTL ≠ 0 then send s else some s
  else some s

/-- How `stop` ends for a process under /proc. -/
def procStop (k : Kernel Ptr) (s : Sys Ptr) (p : Ptr) : Option (Sys Ptr) :=
  let s := setFlag s p (s.slp.flag p &&& ~~~sPRSTOP)
  match (s.sigs p).pTrace with
  | none => some s
  | some chan => s.calls (wakeprocs k s.slp chan true)

/-- The process has stopped; who waits for it is told. -/
def tellStop (k : Kernel Ptr) (s : Sys Ptr) (p : Ptr) (why what : Nat) (firststop : Bool) :
    Option (Sys Ptr) :=
  if why = PR_JOBCONTROL then
    let s := setFlag s p (s.slp.flag p ||| sPSTART)
    sigcld k (setStopped s p { s.slp.stopped p with pWcode := CLD_STOPPED, pWdata := what }) p
  else if why = PR_SIGNALLED then
    if s.slp.flag p &&& sTRC ≠ 0 then
      let s := setStopped s p { s.slp.stopped p with pWcode := CLD_TRAPPED, pWdata := what }
      (s.calls ((wakeprocs k s.slp (k.addr (s.slp.pParent p)) true).bind fun slp =>
        wakeprocs k slp (k.addr p) true)).bind fun s =>
          if !firststop || !sigismember (s.sigs p).pSigmask what then
            some (setFlag s p (s.slp.flag p ||| sPSTART))
          else procStop k s p
    else procStop k (setFlag s p (s.slp.flag p ||| sXSTART)) p
  else procStop k (setFlag s p (s.slp.flag p ||| sXSTART)) p

/-- The result says whether the process has stopped; its class is not told here. -/
def stop (k : Kernel Ptr) (s : Sys Ptr) (p : Ptr) (why what : Nat) (firststop : Bool) :
    Option (Sys Ptr × Bool) :=
  if (s.sigs p).pCursig = SIGKILL ∨ sigismember (s.sigs p).pSig SIGKILL ∨
      s.slp.flag p &&& sPTRX ≠ 0 then
    some (s, false)
  else
    let slp := setStat (s.slp.setDisp (dispdeq s.slp.disp p).2) p .sstop
    let s := setFlag { s with slp := slp } p (slp.flag p &&& ~~~(sPSTART ||| sXSTART))
    let s := setStopped s p { s.slp.stopped p with pWhystop := why, pWhatstop := what }
    (tellStop k s p why what firststop).map fun s => (s, true)

/-! ### `issig` -/

/-- `isjobstop` is 0 or 1, or goes on when the process runs again. -/
inductive Jobstop where
  | no | yes | stop
  deriving DecidableEq

def isjobstop (k : Kernel Ptr) (s : Sys Ptr) (p : Ptr) (sig : Int) : Option (Sys Ptr × Jobstop) :=
  let g := s.sigs p
  if g.uSignal sig = SIG_DFL ∧ sigismember stopdefault sig then
    if sigismember g.pSig SIGCONT then
      some (setSigs s p (sigdelq { g with pSig := sigdelset g.pSig SIGCONT } SIGCONT), .yes)
    else if sig = SIGSTOP ∨ ¬ g.pDetached then
      (stop k s p PR_JOBCONTROL sig.toNat false).map fun r => (r.1, .stop)
    else some (s, .yes)
  else some (s, .no)

/-- The end of `isjobstop` once the process runs again, or at once if it cannot be stopped. -/
def jobContinued (k : Kernel Ptr) (s : Sys Ptr) (p : Ptr) : Option (Sys Ptr) :=
  sigcld k (setStopped s p
    { s.slp.stopped p with pWcode := CLD_CONTINUED, pWdata := SIGCONT.toNat }) p

/-- A look at the current signal. -/
def lookCurrent (k : Kernel Ptr) (s : Sys Ptr) (p : Ptr) : Option (Sys Ptr) :=
  let sig := (s.sigs p).pCursig
  if sig ≠ 0 then
    let return_ (s : Sys Ptr) : Sys Ptr :=
      setPoint (setSigs s p { s.sigs p with pCursig := sig }) p (.out sig)
    let s := setSigs s p { s.sigs p with pCursig := 0 }
    if s.why p = .justlooking ∨ s.slp.flag p &&& sPTRX ≠ 0 then some (return_ s)
    else if ignored s p sig then some (setPoint s p .discard)
    else (isjobstop k s p sig).map fun r =>
      match r.2 with
      | .no => return_ r.1
      | .yes => setPoint r.1 p .discard
      | .stop => setPoint r.1 p .continued
  else some (setPoint s p .pending)

/-- A look at the pending signals. -/
def lookPending (s : Sys Ptr) (p : Ptr) : Sys Ptr :=
  let g := s.sigs p
  let sig := fsig g (s.slp.flag p)
  if sig = 0 then setPoint s p (.out 0)
  else if tracing s p sig ∨ ¬ ignored s p sig then
    if s.why p = .justlooking then setPoint s p (.out sig)
    else
      let s := setSigs s p (promote g sig)
      setPoint s p (if tracing s p sig then .traced sig true else .top)
  else setSigs s p (sigdelq { g with pSig := sigdelset g.pSig sig } sig)

/-- What `issig` does until it may lose the processor, or before the next turn of a loop;
`released` is what `procxmt` returns if it is called. -/
def issigStep (k : Kernel Ptr) (s : Sys Ptr) (p : Ptr) (released : Bool) : Option (Sys Ptr) :=
  match s.point p with
  | .out _ => some s
  | .top =>
      if s.why p = .forreal ∧ s.slp.flag p &&& sPRSTOP ≠ 0 then
        (stop k s p PR_REQUESTED 0 false).map fun r => setPoint r.1 p .current
      else some (setPoint s p .current)
  | .current => lookCurrent k s p
  | .continued => (jobContinued k s p).map fun s => setPoint s p .discard
  | .discard =>
      let g := s.sigs p
      some (setPoint (setSigs s p { g with
        pCurinfo := if g.pCursig = 0 then none else g.pCurinfo }) p .top)
  | .pending => some (lookPending s p)
  | .traced sig firststop =>
      if s.slp.flag p &&& sTRC ≠ 0 ∧ (s.sigs p).pPpid = 1 then
        some (setPoint (setFlag s p (s.slp.flag p ||| sPTRX)) p .released)
      else (stop k s p PR_SIGNALLED sig.toNat firststop).map fun r =>
        setPoint r.1 p (if r.2 then .trapped sig else .released)
  | .trapped sig =>
      some (setPoint s p (if s.slp.flag p &&& sTRC ≠ 0 ∧ ¬ released then .traced sig false
        else .released))
  | .released =>
      let g := s.sigs p
      some (setPoint (setSigs s p { g with
        pCursig := if s.slp.flag p &&& sPTRX ≠ 0 ∧ g.pCursig = 0 then SIGKILL else g.pCursig })
          p .top)

def issig (s : Sys Ptr) (p : Ptr) (why : Why) : Sys Ptr :=
  setPoint { setSigs s p { s.sigs p with uSigevpend := false } with
    why := update s.why p why } p .top

end Svr42.Sig
