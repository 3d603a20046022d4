import Mathlib.Data.Finset.Card
import Svr42.NextList
import Svr42.RunExec

/-! Process ids: the pid structures, the process directory, process groups and sessions. The functions
are those of `pid.c`, `pgrp.c` and `session.c`, with what `newproc` and the stream head do with the
references they count. Structures are at addresses, and each field is a function of the address; a
search that runs into a null pointer the source asserts away, or that `fuel` does not cover, has no
result. -/

namespace Svr42.Proc
open Function

/-- `p_stat` -/
inductive Stat where
  | ssleep
  | srun
  | szomb
  | sstop
  | sidl
  | sonproc
  | sxbrk
  deriving DecidableEq, Repr

/-- `union procent`: a slot of the directory is in use, or on the free list. -/
inductive Procent where
  | proc (pe_proc : Nat)
  | next (pe_next : Option Nat)
  deriving DecidableEq, Repr

/-- The tunables of `struct var`. -/
structure Var where
  v_proc : Nat
  v_maxup : Nat

structure State where
  -- `struct pid`: what is allocated, and its fields
  pids : Finset Nat
  pid_prinactive : Nat → Bool
  pid_pgorphaned : Nat → Bool
  pid_ref : Nat → Nat
  -- `pid_prslot` has 24 bits, enough for every slot
  pid_prslot : Nat → Nat
  pid_id : Nat → Int
  pid_pglink : Nat → Option Nat
  pid_link : Nat → Option Nat
  -- `proc_t`
  procs : Finset Nat
  p_stat : Nat → Stat
  p_uid : Nat → Nat
  p_parent : Nat → Option Nat
  p_pidp : Nat → Nat
  p_pgidp : Nat → Option Nat
  p_pglink : Nat → Option Nat
  p_sessp : Nat → Option Nat
  p_next : Nat → Option Nat
  -- `sess_t`; `s_vp` is the stream of the controlling terminal
  sesss : Finset Nat
  s_ref : Nat → Int
  s_sidp : Nat → Nat
  s_vp : Nat → Option Nat
  -- `struct stdata`
  streams : Finset Nat
  sd_sidp : Nat → Option Nat
  sd_pgidp : Nat → Option Nat
  -- the variables of `pid.c`
  nproc : Nat
  pidhash : Int → Option Nat
  minpid : Int
  mpid : Int
  procdir : Nat → Procent
  procentfree : Option Nat
  practive : Option Nat

def pid0 : Nat := 0

def session0 : Nat := 0

def proc_sched : Nat := 0

def MAXPID : Int := 30000

def HASHSZ : Int := 64

/-- The index of `HASHPID`; the mask of a negative id is that of its two's complement. -/
def hashpid (pid : Int) : Int := pid % HASHSZ

section Pid

variable (fuel : Nat) (s : State)

def pid_lookup (pid : Int) : Option (Option Nat) :=
  seek s.pid_link (fun pidp => s.pid_id pidp = pid) fuel (s.pidhash (hashpid pid))

def pid_setmin : State := { s with minpid := s.mpid + 1 }

def PID_HOLD (pidp : Nat) : State :=
  { s with pid_ref := update s.pid_ref pidp ((s.pid_ref pidp + 1) % 64) }

def pid_rele (pidp : Nat) : Option State :=
  if pidp = pid0 then none
  else
    (findFrom s.pid_link (· = pidp) fuel none (s.pidhash (hashpid (s.pid_id pidp)))).map fun found =>
      { s with
        pidhash := update s.pidhash (hashpid (s.pid_id pidp))
          (relinkStart found.1 (s.pidhash (hashpid (s.pid_id pidp))) (s.pid_link pidp))
        pid_link := relinkNext found.1 s.pid_link (s.pid_link pidp)
        pids := s.pids.erase pidp }

def PID_RELE (pidp : Nat) : Option State :=
  if 1 < s.pid_ref pidp then
    some { s with pid_ref := update s.pid_ref pidp (s.pid_ref pidp - 1) }
  else pid_rele fuel s pidp

end Pid

/-! Process groups. -/

/-- The parent of `cp` is in another process group of its session. -/
def pglinked (s : State) (cp : Nat) : Bool :=
  match s.p_parent cp with
  | none => false
  | some pp => decide (s.p_pgidp pp ≠ s.p_pgidp cp ∧ s.p_sessp pp = s.p_sessp cp)

def pgjoin (s : State) (p pgp : Nat) : State :=
  let s := { s with
    p_pglink := update s.p_pglink p (s.pid_pglink pgp)
    pid_pglink := update s.pid_pglink pgp (some p)
    p_pgidp := update s.p_pgidp p (some pgp) }
  if s.p_pglink p = none then
    let s := PID_HOLD s pgp
    { s with pid_pgorphaned := update s.pid_pgorphaned pgp (!pglinked s p) }
  else if s.pid_pgorphaned pgp ∧ pglinked s p then
    { s with pid_pgorphaned := update s.pid_pgorphaned pgp false }
  else s

/-- The signals to a stopped group that is orphaned are left out. -/
def pgexit (fuel : Nat) (s : State) (prp : Nat) : Option State :=
  (s.p_pgidp prp).bind fun pgp =>
  (findFrom s.p_pglink (· = prp) fuel none (s.pid_pglink pgp)).bind fun found =>
  let s := { s with
    pid_pglink := update s.pid_pglink pgp
      (relinkStart found.1 (s.pid_pglink pgp) (s.p_pglink prp))
    p_pglink := update (relinkNext found.1 s.p_pglink (s.p_pglink prp)) prp none
    p_pgidp := update s.p_pgidp prp none }
  if s.pid_pglink pgp = none then PID_RELE fuel s pgp
  else if s.pid_pgorphaned pgp then some s
  else
    -- the group is orphaned unless some member that is no zombie is linked
    (seek s.p_pglink (fun p => s.p_stat p ≠ .szomb ∧ pglinked s p) fuel (s.pid_pglink pgp)).map
      fun linked =>
        { s with
          pid_pgorphaned := update s.pid_pgorphaned pgp (decide (linked = none)) }

/-! Sessions. -/

def short (n : Int) : Int := n.bmod 65536

def SESS_HOLD (s : State) (sp : Nat) : State :=
  { s with s_ref := update s.s_ref sp (short (s.s_ref sp + 1)) }

def sess_rele (fuel : Nat) (s : State) (sp : Nat) : Option State :=
  if sp = session0 then none
  else (PID_RELE fuel s (s.s_sidp sp)).map fun s => { s with sesss := s.sesss.erase sp }

def SESS_RELE (fuel : Nat) (s : State) (sp : Nat) : Option State :=
  let s := { s with s_ref := update s.s_ref sp (short (s.s_ref sp - 1)) }
  if 0 < s.s_ref sp then some s else sess_rele fuel s sp

/-- `sp` is what `kmem_zalloc` returns; it may be the block that was freed just before. The flags of
the groups of the children are left out. -/
def sess_create (fuel : Nat) (s : State) (pp sp : Nat) : Option State :=
  (pgexit fuel s pp).bind fun s =>
  (s.p_sessp pp).bind fun old =>
  (SESS_RELE fuel s old).map fun s =>
  let s := { s with
    sesss := insert sp s.sesss
    s_sidp := update s.s_sidp sp (s.p_pidp pp)
    s_ref := update s.s_ref sp 1
    s_vp := update s.s_vp sp none
    p_sessp := update s.p_sessp pp (some sp) }
  let s := pgjoin s pp (s.p_pidp pp)
  PID_HOLD s (s.s_sidp sp)

/-! Processes. -/

/-- What `pid_assign` reads of the process that forks, and what the functions outside return to it. -/
structure Fork where
  cr_ruid : Nat
  cr_uid : Nat
  pm_denied : Bool
  np_failok : Bool
  mac_installed : Bool
  random : Int
  prp : Option Nat
  pidp : Option Nat

/-- `kmem_zalloc` of a pid structure and of a process. -/
def kmem_zalloc (s : State) (prp pidp : Nat) : State :=
  { s with
    pids := insert pidp s.pids
    pid_prinactive := update s.pid_prinactive pidp false
    pid_pgorphaned := update s.pid_pgorphaned pidp false
    pid_ref := update s.pid_ref pidp 0
    pid_prslot := update s.pid_prslot pidp 0
    pid_id := update s.pid_id pidp 0
    pid_pglink := update s.pid_pglink pidp none
    pid_link := update s.pid_link pidp none
    procs := insert prp s.procs
    p_uid := update s.p_uid prp 0
    p_parent := update s.p_parent prp none
    p_pgidp := update s.p_pgidp prp none
    p_pglink := update s.p_pglink prp none
    p_sessp := update s.p_sessp prp none
    p_next := update s.p_next prp none }

/-- The loop that looks for an id no pid structure has, from the one after `mpid`. -/
def nextPid (fuel : Nat) (s : State) : Nat → Int → Option Int
  | 0, _ => none
  | n + 1, mpid =>
      let mpid := if MAXPID ≤ mpid + 1 then s.minpid else mpid + 1
      (pid_lookup fuel s mpid).bind fun pidp =>
        if pidp = none then some mpid else nextPid fuel s n mpid

/-- The slot is taken off the free list, and the pid structure and the process are entered. -/
def enter (s : State) (prp pidp slot : Nat) (link : Option Nat) (mpid : Int) : State :=
  let s := { s with
    mpid := mpid
    procentfree := link
    procdir := update s.procdir slot (.proc prp) }
  let s := PID_HOLD s pidp
  { s with
    pid_id := update s.pid_id pidp mpid
    pid_prslot := update s.pid_prslot pidp slot
    pid_link := update s.pid_link pidp (s.pidhash (hashpid mpid))
    pidhash := update s.pidhash (hashpid mpid) (some pidp)
    p_stat := update s.p_stat prp .sidl
    p_pidp := update s.p_pidp prp pidp
    p_next := update s.p_next prp s.practive
    practive := some prp
    nproc := s.nproc + 1 }

/-- The result is the process id, or -1. -/
def pid_assign (v : Var) (fuel : Nat) (s : State) (c : Fork) : Option (State × Int) :=
  if v.v_proc - 1 ≤ s.nproc ∧ (s.nproc = v.v_proc ∨ c.pm_denied) then some (s, -1)
  else
    (walk s.p_next fuel s.practive).bind fun active =>
    let uid_procs := active.countP fun prp => s.p_uid prp = c.cr_ruid
    let maxup :=
      if s.p_uid proc_sched = c.cr_ruid ∨ s.p_uid proc_sched = c.cr_uid then 2 * v.v_maxup
      else v.v_maxup
    if maxup ≤ uid_procs ∧ c.pm_denied then some (s, -1)
    else
      match c.prp, c.pidp with
      | some prp, some pidp =>
          let mpid := if c.mac_installed ∧ s.minpid ≠ 0 ∧ c.random ≠ 0 then c.random else s.mpid
          (nextPid fuel s fuel mpid).bind fun mpid =>
          s.procentfree.bind fun slot =>
          match s.procdir slot with
          | .next link => some (enter (kmem_zalloc s prp pidp) prp pidp slot link mpid, mpid)
          | .proc _ => none
      | _, _ => if c.np_failok then some (s, -1) else none

def pid_exit (fuel : Nat) (s : State) (prp : Nat) : Option State :=
  (pgexit fuel s prp).bind fun s =>
  (s.p_sessp prp).bind fun sp =>
  (SESS_RELE fuel s sp).bind fun s =>
  let pidp := s.p_pidp prp
  let s := { s with
    pid_prinactive := update s.pid_prinactive pidp true
    procdir := update s.procdir (s.pid_prslot pidp) (.next s.procentfree)
    procentfree := some (s.pid_prslot pidp) }
  (PID_RELE fuel s pidp).bind fun s =>
  (findFrom s.p_next (· = prp) fuel none s.practive).map fun found =>
  { s with
    practive := relinkStart found.1 s.practive (s.p_next prp)
    p_next := relinkNext found.1 s.p_next (s.p_next prp)
    procs := s.procs.erase prp
    nproc := s.nproc - 1 }

/-- Reading a slot that holds no process has no result. -/
def prfind (fuel : Nat) (s : State) (pid : Int) : Option (Option Nat) :=
  (pid_lookup fuel s pid).bind fun pidp =>
  match pidp with
  | none => some none
  | some pidp =>
      if s.pid_prinactive pidp then some none
      else
        match s.procdir (s.pid_prslot pidp) with
        | .proc prp => some (some prp)
        | .next _ => none

def pgfind (fuel : Nat) (s : State) (pgid : Int) : Option (Option Nat) :=
  (pid_lookup fuel s pgid).map fun pidp => pidp.bind s.pid_pglink

/-- `cp->p_sessp = pp->p_sessp; SESS_HOLD(pp->p_sessp);` of `newproc` -/
def newproc_session (s : State) (cp pp : Nat) : Option State :=
  (s.p_sessp pp).map fun sp =>
    SESS_HOLD { s with p_sessp := update s.p_sessp cp (some sp) } sp

/-! Controlling terminals. -/

def stralloctty (s : State) (sp stp : Nat) : State :=
  let s := { s with
    sd_sidp := update s.sd_sidp stp (some (s.s_sidp sp))
    sd_pgidp := update s.sd_pgidp stp (some (s.s_sidp sp)) }
  PID_HOLD (PID_HOLD s (s.s_sidp sp)) (s.s_sidp sp)

def strfreectty (fuel : Nat) (s : State) (stp : Nat) : Option State :=
  (s.sd_pgidp stp).bind fun pgidp =>
  (s.sd_sidp stp).bind fun sidp =>
  (PID_RELE fuel s pgidp).bind fun s =>
  (PID_RELE fuel s sidp).map fun s =>
  { s with
    sd_pgidp := update s.sd_pgidp stp none
    sd_sidp := update s.sd_sidp stp none }

/-- On a stream that is not hung up or in error; on the others it does nothing. -/
def strctty (s : State) (pp stp : Nat) : Option State :=
  (s.p_sessp pp).map fun sp =>
    if s.sd_sidp stp = none ∧ s.s_sidp sp = s.p_pidp pp ∧ s.s_vp sp = none then
      stralloctty { s with s_vp := update s.s_vp sp (some stp) } sp stp
    else s

def freectty (fuel : Nat) (s : State) (sp : Nat) : Option State :=
  (s.s_vp sp).bind fun stp =>
  (strfreectty fuel s stp).map fun s => { s with s_vp := update s.s_vp sp none }

/-- The end of `TIOCSPGRP`: the stream lets go of `pgidp` for the group of the process found, if it is
in the session `sp`. -/
def setpgidp (fuel : Nat) (s : State) (sp stp pgidp : Nat) : Option Nat → Option State
  | none => some s
  | some q =>
      if s.p_sessp q ≠ some sp then some s
      else
        (PID_RELE fuel s pgidp).bind fun s =>
        (s.p_pgidp q).map fun pgidp =>
          PID_HOLD { s with sd_pgidp := update s.sd_pgidp stp (some pgidp) } pgidp

/-- `TIOCSPGRP`; where it returns an error, the state is left as it is. -/
def tiocspgrp (fuel : Nat) (s : State) (p stp : Nat) (pgrp : Int) : Option State :=
  (s.p_sessp p).bind fun sp =>
  if s.sd_sidp stp ≠ some (s.s_sidp sp) then some s
  else
    (s.sd_pgidp stp).bind fun pgidp =>
    if pgrp = s.pid_id pgidp ∨ pgrp ≤ 0 ∨ MAXPID ≤ pgrp then some s
    else (pgfind fuel s pgrp).bind fun found => setpgidp fuel s sp stp pgidp found

/-! The system. -/

inductive Event where
  | pid_setmin
  | pid_assign (c : Fork)
  | newproc_session (cp pp : Nat)
  | pgjoin (p pgp : Nat)
  | pgexit (p : Nat)
  | sess_create (pp sp : Nat)
  | pid_exit (p : Nat)
  | stropen (stp : Nat)
  | strclose (stp : Nat)
  | strctty (pp stp : Nat)
  | freectty (sp : Nat)
  | tiocspgrp (p stp : Nat) (pgrp : Int)
  | changed (p uid : Nat) (stat : Stat) (parent : Option Nat)

/-- What the event does; `changed` is what the rest of the kernel does to a process. -/
def call (v : Var) (fuel : Nat) (s : State) : Event → Option State
  | .pid_setmin => some (pid_setmin s)
  | .pid_assign c => (pid_assign v fuel s c).map Prod.fst
  | .newproc_session cp pp => newproc_session s cp pp
  | .pgjoin p pgp => some (pgjoin s p pgp)
  | .pgexit p => pgexit fuel s p
  | .sess_create pp sp => sess_create fuel s pp sp
  | .pid_exit p => pid_exit fuel s p
  | .stropen stp =>
      some { s with
        streams := insert stp s.streams
        sd_sidp := update s.sd_sidp stp none
        sd_pgidp := update s.sd_pgidp stp none }
  | .strclose stp =>
      if s.sd_sidp stp = none ∧ s.sd_pgidp stp = none then
        some { s with streams := s.streams.erase stp }
      else none
  | .strctty pp stp => strctty s pp stp
  | .freectty sp => freectty fuel s sp
  | .tiocspgrp p stp pgrp => tiocspgrp fuel s p stp pgrp
  | .changed p uid stat parent =>
      some { s with
        p_uid := update s.p_uid p uid
        p_stat := update s.p_stat p stat
        p_parent := update s.p_parent p parent }

/-- When the callers make the call. `pid_setmin` is called once. Blocks that are allocated are not in
use. A process is given a session when it is created; it joins a group of its session or its own; the leader of a session does
not leave its group and makes no other session (`setpgrp`, `setsid`, `setpgid`). Process 0 does not
exit. A terminal is freed by a process of the session it is the terminal of; moving it to another
session is freeing it and allocating it. -/
def Protocol (s : State) : Event → Prop
  | .pid_setmin => s.minpid = 0
  | .pid_assign c =>
      (∀ prp, c.prp = some prp → prp ∉ s.procs) ∧ (∀ pidp, c.pidp = some pidp → pidp ∉ s.pids) ∧
        0 ≤ c.random ∧ c.random ≤ MAXPID - 2
  | .newproc_session cp pp =>
      cp ∈ s.procs ∧ s.p_sessp cp = none ∧ pp ∈ s.procs ∧ s.p_sessp pp ≠ none
  | .pgjoin p pgp =>
      p ∈ s.procs ∧ s.p_pgidp p = none ∧ s.p_sessp p ≠ none ∧
        (pgp = s.p_pidp p ∨ ∃ q ∈ s.procs, s.p_pgidp q = some pgp ∧ s.p_sessp q = s.p_sessp p)
  | .pgexit p =>
      p ∈ s.procs ∧ s.p_pgidp p ≠ none ∧ ∀ sp, s.p_sessp p = some sp → s.s_sidp sp ≠ s.p_pidp p
  | .sess_create pp sp =>
      pp ∈ s.procs ∧ s.p_pgidp pp ≠ none ∧ s.p_sessp pp ≠ none ∧
        (s.p_pgidp pp ≠ some (s.p_pidp pp) ∨
          ∀ old, s.p_sessp pp = some old → s.s_sidp old ≠ s.p_pidp pp) ∧
        (sp ∈ s.sesss → s.p_sessp pp = some sp ∧ s.s_ref sp = 1)
  | .pid_exit p => p ∈ s.procs ∧ p ≠ proc_sched ∧ s.p_pgidp p ≠ none ∧ s.p_sessp p ≠ none
  | .stropen stp => stp ∉ s.streams
  | .strclose stp => stp ∈ s.streams ∧ s.sd_sidp stp = none
  | .strctty pp stp => pp ∈ s.procs ∧ s.p_sessp pp ≠ none ∧ stp ∈ s.streams
  | .freectty sp => sp ∈ s.sesss ∧ s.s_vp sp ≠ none
  | .tiocspgrp p stp _ => p ∈ s.procs ∧ s.p_sessp p ≠ none ∧ stp ∈ s.streams
  | .changed _ _ _ _ => True

def Step (v : Var) (s : State) (event : Event) (t : State) : Prop :=
  Protocol s event ∧ Returns (fun fuel => call v fuel s event) t

/-- The state `pid_init` and the startup of process 0 leave: the slots behind its own are free, in
order. -/
structure Booted (v : Var) (s : State) : Prop where
  room : 2 ≤ v.v_proc
  pids : s.pids = {pid0}
  procs : s.procs = {proc_sched}
  sesss : s.sesss = {session0}
  streams : s.streams = ∅
  prinactive : s.pid_prinactive pid0 = false
  ref : s.pid_ref pid0 = 3
  prslot : s.pid_prslot pid0 = 0
  id : s.pid_id pid0 = 0
  pglink : s.pid_pglink pid0 = some proc_sched
  link : s.pid_link pid0 = none
  pidp : s.p_pidp proc_sched = pid0
  pgidp : s.p_pgidp proc_sched = some pid0
  p_pglink : s.p_pglink proc_sched = none
  sessp : s.p_sessp proc_sched = some session0
  next : s.p_next proc_sched = none
  s_ref : s.s_ref session0 = 1
  sidp : s.s_sidp session0 = pid0
  vp : s.s_vp session0 = none
  nproc : s.nproc = 1
  pidhash : ∀ i, s.pidhash i = if i = hashpid 0 then some pid0 else none
  minpid : s.minpid = 0
  mpid : s.mpid = 0
  slot : s.procdir 0 = .proc proc_sched
  free : ∀ i, 0 < i → i < v.v_proc →
    s.procdir i = .next (if i + 1 < v.v_proc then some (i + 1) else none)
  procentfree : s.procentfree = some 1
  practive : s.practive = some proc_sched
  empty : ∀ a, a ≠ pid0 → s.pid_pglink a = none

end Svr42.Proc
