import Svr42.FlockAdj
import Svr42.RunExec

/-! `reclock` and `cleanlocks` over all vnodes, with the processes asleep in `reclock`. A call runs
without interruption from its start, or from the end of a sleep, to its return or the next sleep;
the runs interleave such stretches of any number of processes with signals and `cleanlocks`. -/

namespace Svr42.Flck

/-! ### The call -/

/-- The bits of `cmd`. -/
structure Cmd where
  inoflck : Bool
  setflck : Bool
  slpflck : Bool
  rcmdlck : Bool
  deriving DecidableEq, Repr

/-- The arguments of `reclock` besides `lckdat`, with FREAD and FWRITE of `flag`, what VOP_GETATTR
says (an error, or the size), and the XENIX tests. -/
structure Call where
  vp : Nat
  cmd : Cmd
  fread : Bool
  fwrite : Bool
  offset : Int
  attr : Except Int Int
  xenix : Xenix

/-- The access check. -/
def access (c : Call) (lckdat : Flock) : Option Errno :=
  if c.xenix.badvisePreSv = false ∧
      (c.cmd.setflck = true ∨ (c.xenix.virtualXout = true ∧ c.xenix.isFcntl = true) ∨
        c.xenix.isLocking = true) ∧
      ((lckdat.lType = .rdlck ∧ c.fread = false) ∨ (lckdat.lType = .wrlck ∧ c.fwrite = false)) then
    if c.xenix.virtualXout = true ∨ c.xenix.isLocking = true then some .einval else some .ebadf
  else none

/-- `l_start` counted from the beginning of the file. -/
def startFromZero (lckdat : Flock) (size offset : Int) : Int :=
  if lckdat.lWhence = 1 then int32 (lckdat.lStart + offset)
  else if lckdat.lWhence = 2 then int32 (lckdat.lStart + size)
  else lckdat.lStart

/-- A position in the file counted from `whence`. -/
def startFrom (whence start size offset : Int) : Int :=
  if whence = 1 then int32 (start - offset)
  else if whence = 2 then int32 (start - size)
  else start

def convoff (attr : Except Int Int) (lckdat : Flock) (whence offset : Int) : Except Errno Flock :=
  match attr with
  | .error code => .error (.getattr code)
  | .ok size =>
      if lckdat.lWhence ≠ 0 ∧ lckdat.lWhence ≠ 1 ∧ lckdat.lWhence ≠ 2 then .error .einval
      else if startFromZero lckdat size offset < 0 then .error .einval
      else if whence ≠ 0 ∧ whence ≠ 1 ∧ whence ≠ 2 then .error .einval
      else
        .ok { lckdat with
          lStart := startFrom whence (startFromZero lckdat size offset) size offset
          lWhence := whence }

def endOf (ld : Flock) : Int :=
  if ld.lEnd = 0 then maxEnd else int32 (ld.lEnd + (ld.lStart - 1))

/-- `reclock` up to its loop: the request relative to the beginning of the file, with `l_end`. -/
def prologue (c : Call) (lckdat : Flock) : Except Errno Flock :=
  match access c lckdat with
  | some code => .error code
  | none =>
      match convoff c.attr lckdat 0 c.offset with
      | .error code => .error code
      | .ok ld =>
          if ld.lEnd < 0 then .error .einval
          else if endOf ld < ld.lStart then .error .einval
          else .ok { ld with lEnd := endOf ld }

def restoreLen (lckdat : Flock) : Flock :=
  if lckdat.lEnd = maxEnd then { lckdat with lEnd := 0 }
  else { lckdat with lEnd := int32 (lckdat.lEnd - (lckdat.lStart - 1)) }

/-! ### One pass of the loop -/

/-- The lists of all vnodes, `sleeplcks`, and the memory they take. -/
structure Sys where
  filocks : Nat → List Filock
  sleeplcks : List Filock
  mem : Mem

def Sys.setFilocks (s : Sys) (vp : Nat) (l : List Filock) (mem : Mem) : Sys :=
  { s with filocks := Function.update s.filocks vp l, mem := mem }

def Sys.setSleeplcks (s : Sys) (l : List Filock) (mem : Mem) : Sys :=
  { s with sleeplcks := l, mem := mem }

/-- `delflck` of every entry that `pick` picks: the entries left, the memory and the channels
woken. -/
def delAll (pick : Filock → Bool) : List Filock → Mem → List Filock × Mem × List Nat
  | [], mem => ([], mem, [])
  | f :: rest, mem =>
      if pick f = true then
        match delAll pick rest (mem.free f.addr) with
        | (left, mem, wakes) => (left, mem, wakeup f ++ wakes)
      else
        match delAll pick rest mem with
        | (left, mem, wakes) => (f :: left, mem, wakes)

def rmMatch (lck : Flock) (tmp : Filock) : Bool :=
  tmp.set.lWhence = lck.lWhence && lck.lStart ≤ tmp.set.lStart && tmp.set.lEnd ≤ lck.lEnd &&
    tmp.set.lSysid = lck.lSysid && tmp.set.lPid = lck.lPid

/-- `RM_SLEEPLCKS`. After each removal the macro starts again from the head, where nothing matches
any more. -/
def rmSleeplcks (lck : Flock) : List Filock → Mem → List Filock × Mem × List Nat :=
  delAll (rmMatch lck)

def cleanMatch (pid sysid : Int) (flp : Filock) : Bool :=
  (flp.set.lPid = pid || pid = -1) && flp.set.lSysid = sysid

def cleanlocks (pid sysid : Int) : List Filock → Mem → List Filock × Mem × List Nat :=
  delAll (cleanMatch pid sysid)

/-- How a stretch of `reclock` ends: it returns, or sleeps on `found` with its entry `sf` in
`sleeplcks`. -/
inductive Pass where
  | ret (s : Sys) (wakes : List Nat) (lckdat : Flock) (code : Option Errno)
  | sleep (s : Sys) (lckdat : Flock) (found sf : Nat)

def rmPass (s : Sys) (wakes : List Nat) (lckdat : Flock) (code : Option Errno) : Pass :=
  match rmSleeplcks lckdat s.sleeplcks s.mem with
  | (left, mem, wakes') => .ret (s.setSleeplcks left mem) (wakes ++ wakes') lckdat code

/-- The request is on `sleeplcks` already, waiting for the owner of `found`. -/
def waitingFor (lckdat : Flock) (found sf : Filock) : Bool :=
  sf.set = lckdat && sf.stat.blk = found.set.owner

/-- `found->stat.wakeflg++`, as an entry `f` sees it. -/
def counted (found f : Filock) : Filock :=
  if f.addr = found.addr then
    { f with stat := { f.stat with wakeflg := int32 (f.stat.wakeflg + 1) } }
  else f

def countSleeper (l : List Filock) (found : Filock) : List Filock := l.map (counted found)

def setBlk (l : List Filock) (sf : Nat) (blk : Int × Int) : List Filock :=
  l.map fun f => if f.addr = sf then { f with stat := ⟨blk.1, blk.2⟩ } else f

/-- A blocked request that is to wait. -/
def waitPass (k : Kmem) (c : Call) (s : Sys) (lckdat : Flock) (found : Filock) : Pass :=
  if c.cmd.rcmdlck = true ∧ s.sleeplcks.any (waitingFor lckdat found) = true then
    .ret s [] lckdat (some .eintr)
  else
    match insflck k s.mem s.sleeplcks lckdat none with
    | (mem, none) => .ret { s with mem := mem } [] lckdat (some .enolck)
    | (mem, some (sf, l)) =>
        let s := s.setSleeplcks (setBlk l sf found.set.owner) mem
        if c.cmd.rcmdlck = true then .ret s [] lckdat (some .eintr)
        else
          .sleep (s.setFilocks c.vp (countSleeper (s.filocks c.vp) found) s.mem) lckdat found.addr sf

/-- The loop body for F_RDLCK and F_WRLCK; `fuel` bounds the walk of `deadflck`. -/
def lockPass (k : Kmem) (fuel : Nat) (c : Call) (s : Sys) (lckdat : Flock) : Option Pass :=
  match blocked c.xenix (s.filocks c.vp) lckdat with
  | (none, insrt) =>
      if c.cmd.setflck = true then
        match flckadj k s.mem (s.filocks c.vp) insrt lckdat with
        | (a, code) =>
            let s := s.setFilocks c.vp a.list a.mem
            if c.cmd.rcmdlck = true ∧ c.cmd.slpflck = true then some (rmPass s a.wakes a.ld code)
            else some (.ret s a.wakes a.ld code)
      else
        let lckdat := { lckdat with lType := .unlck }
        if c.cmd.rcmdlck = true ∧ c.cmd.slpflck = true then some (rmPass s [] lckdat none)
        else some (.ret s [] lckdat none)
  | (some found, _) =>
      if c.cmd.slpflck = true then
        match deadflck s.sleeplcks lckdat fuel found.set.owner with
        | none => none
        | some true => some (.ret s [] lckdat (some .edeadlk))
        | some false => some (waitPass k c s lckdat found)
      else if c.cmd.setflck = true then some (.ret s [] lckdat (some .eagain))
      else some (.ret s [] found.set none)

/-- The loop body for F_UNLCK. -/
def unlockPass (k : Kmem) (c : Call) (s : Sys) (lckdat : Flock) : Pass :=
  if c.cmd.setflck = true then
    match flckadj k s.mem (s.filocks c.vp) ((s.filocks c.vp).head?.map Filock.addr) lckdat with
    | (a, code) =>
        let s := s.setFilocks c.vp a.list a.mem
        if c.cmd.rcmdlck = true then rmPass s a.wakes a.ld code else .ret s a.wakes a.ld code
  else
    let lckdat :=
      if c.xenix.virtualXout = true ∧ c.xenix.isFcntl = true then
        match (blocked c.xenix (s.filocks c.vp) lckdat).1 with
        | some found => found.set
        | none => lckdat
      else lckdat
    if c.cmd.rcmdlck = true then rmPass s [] lckdat none else .ret s [] lckdat none

def pass (k : Kmem) (fuel : Nat) (c : Call) (s : Sys) (lckdat : Flock) : Option Pass :=
  match lckdat.lType with
  | .rdlck => lockPass k fuel c s lckdat
  | .wrlck => lockPass k fuel c s lckdat
  | .unlck => some (unlockPass k c s lckdat)
  | .other _ => some (.ret s [] lckdat (some .einval))

/-- Where a stretch begins: at the call, or after `SLEEP`, which a signal may have ended. -/
inductive Entry where
  | call (lckdat : Flock)
  | awake (lckdat : Flock) (sf : Nat) (intr : Bool)

def Pass.restore : Pass → Pass
  | .ret s wakes lckdat code => .ret s wakes (restoreLen lckdat) code
  | .sleep s lckdat found sf => .sleep s lckdat found sf

/-- `sf->stat.blk` cleared, then `delflck(&sleeplcks, sf)`; undefined if the entry is gone. -/
def dropSleeper (s : Sys) (sf : Nat) : Option Sys :=
  match s.sleeplcks.find? fun f => f.addr = sf with
  | none => none
  | some f => some (s.setSleeplcks (delflck s.sleeplcks f) (s.mem.free sf))

def stretch (k : Kmem) (fuel : Nat) (c : Call) (s : Sys) : Entry → Option Pass
  | .call lckdat =>
      match prologue c lckdat with
      | .error code => some (.ret s [] lckdat (some code))
      | .ok ld => (pass k fuel c s ld).map Pass.restore
  | .awake lckdat sf intr =>
      match dropSleeper s sf with
      | none => none
      | some s =>
          if intr = true then some (Pass.restore (.ret s [] lckdat (some .eintr)))
          else (pass k fuel c s lckdat).map Pass.restore

/-! ### Runs -/

inductive Proc where
  | idle
  | asleep (c : Call) (lckdat : Flock) (found sf : Nat)
  | ready (c : Call) (lckdat : Flock) (sf : Nat) (intr : Bool)

structure State where
  sys : Sys
  procs : Nat → Proc

def State.setProc (st : State) (i : Nat) (p : Proc) : State :=
  { st with procs := Function.update st.procs i p }

/-- `wakeprocs` on each of the channels. -/
def Proc.wake (wakes : List Nat) : Proc → Proc
  | .asleep c lckdat found sf =>
      if found ∈ wakes then .ready c lckdat sf false else .asleep c lckdat found sf
  | p => p

def State.wake (st : State) (wakes : List Nat) : State :=
  { st with procs := fun i => (st.procs i).wake wakes }

def initial : State := ⟨⟨fun _ => [], [], ⟨0, 0, []⟩⟩, fun _ => .idle⟩

def State.after (st : State) (i : Nat) (c : Call) : Pass → State
  | .ret s wakes _ _ => (State.setProc ⟨s, st.procs⟩ i .idle).wake wakes
  | .sleep s lckdat found sf => State.setProc ⟨s, st.procs⟩ i (.asleep c lckdat found sf)

inductive Event where
  | run (i : Nat) (c : Call) (e : Entry)
  | signal (i : Nat)
  | cleanlocks (vp : Nat) (pid sysid : Int)

inductive Step (k : Kmem) : State → Event → State → Prop
  | call {st : State} {i fuel : Nat} {c : Call} {lckdat : Flock} {r : Pass} :
      st.procs i = .idle → stretch k fuel c st.sys (.call lckdat) = some r →
      Step k st (.run i c (.call lckdat)) (st.after i c r)
  | awake {st : State} {i fuel sf : Nat} {c : Call} {lckdat : Flock} {intr : Bool} {r : Pass} :
      st.procs i = .ready c lckdat sf intr →
      stretch k fuel c st.sys (.awake lckdat sf intr) = some r →
      Step k st (.run i c (.awake lckdat sf intr)) (st.after i c r)
  | signal {st : State} {i found sf : Nat} {c : Call} {lckdat : Flock} :
      st.procs i = .asleep c lckdat found sf →
      Step k st (.signal i) (st.setProc i (.ready c lckdat sf true))
  | cleanlocks {st : State} {vp : Nat} {pid sysid : Int} {l : List Filock} {mem : Mem}
      {wakes : List Nat} :
      Flck.cleanlocks pid sysid (st.sys.filocks vp) st.sys.mem = (l, mem, wakes) →
      Step k st (.cleanlocks vp pid sysid)
        (State.wake { st with sys := st.sys.setFilocks vp l mem } wakes)

end Svr42.Flck
