import Svr42.DispModel

/-! Process groups and their orphaned flags: what `fork`, `setpgid`, `setsid`, `setpgrp`, `exit` and
the freeing of a zombie do to them. References, credentials, terminals and the signals other than
those to an orphaned group are left out. -/

namespace Svr42.Pgrp
open Function

open Disp (Stat)

/-- An id, and the pid structure with it. -/
abbrev Pid := Int

def MAXPID : Int := 30000

def EPERM : Nat := 1
def ESRCH : Nat := 3
def EACCES : Nat := 13
def EINVAL : Nat := 22

def PR_JOBCONTROL : Nat := 5

structure Proc (Ptr : Type) where
  pStat : Stat
  pWhystop : Nat
  pPidp : Pid
  /-- The group; a process that is in none is not there, or on its way to another. -/
  pPgidp : Option Pid
  pSessp : Nat
  pParent : Option Ptr
  /-- `p_child` and its siblings. -/
  pChild : List Ptr
  /-- `SEXECED` -/
  sexeced : Bool

/-- Of a pid structure: the flag, and the processes from `pid_pglink` on. -/
structure Group (Ptr : Type) where
  pgorphaned : Bool
  pglink : List Ptr

/-- `signalled` are the groups that have been sent `SIGHUP` and `SIGCONT`. -/
structure Sys (Ptr : Type) where
  proc : Ptr → Proc Ptr
  group : Pid → Group Ptr
  sSid : Nat → Pid
  signalled : List Pid

variable {Ptr : Type} [DecidableEq Ptr]

def setProc (s : Sys Ptr) (p : Ptr) (proc : Proc Ptr) : Sys Ptr :=
  { s with proc := update s.proc p proc }

def setGroup (s : Sys Ptr) (g : Pid) (group : Group Ptr) : Sys Ptr :=
  { s with group := update s.group g group }

def setOrphaned (s : Sys Ptr) (g : Pid) (pgorphaned : Bool) : Sys Ptr :=
  setGroup s g { s.group g with pgorphaned := pgorphaned }

def zombie (s : Sys Ptr) (p : Ptr) : Bool := (s.proc p).pStat = .szomb

def jobStopped (s : Sys Ptr) (p : Ptr) : Bool :=
  (s.proc p).pStat = .sstop ∧ (s.proc p).pWhystop = PR_JOBCONTROL

/-- The parent of `cp` is in another group of the same session. -/
def pglinked (s : Sys Ptr) (cp : Ptr) : Bool :=
  match (s.proc cp).pParent with
  | none => false
  | some pp => (s.proc pp).pPgidp ≠ (s.proc cp).pPgidp ∧ (s.proc pp).pSessp = (s.proc cp).pSessp

def unorphan (s : Sys Ptr) (pgp : Pid) : Sys Ptr :=
  if (s.group pgp).pglink.any fun mp => !zombie s mp && pglinked s mp then setOrphaned s pgp false
  else s

/-- The loop of `pgorphan`, `pgexit` and `pgdetach`: it ends early at a member that `holds` the group,
and otherwise has counted those that are stopped. -/
def orphan (s : Sys Ptr) (pgp : Pid) (holds : Ptr → Bool) : Sys Ptr :=
  if (s.group pgp).pglink.any holds then s
  else
    let t := setOrphaned s pgp true
    if (s.group pgp).pglink.any (jobStopped s) then { t with signalled := t.signalled ++ [pgp] }
    else t

def pgorphan (s : Sys Ptr) (pgp : Pid) (p : Ptr) (flag : Nat) : Sys Ptr :=
  orphan s pgp fun mp =>
    if flag = 0 then p ≠ mp && !zombie s mp && pglinked s mp
    else (s.proc mp).pParent ≠ some p && !zombie s mp && pglinked s mp

def pgjoin (s : Sys Ptr) (p : Ptr) (pgp : Pid) : Sys Ptr :=
  let rest := (s.group pgp).pglink
  let s := setGroup s pgp { s.group pgp with pglink := p :: rest }
  let s := setProc s p { s.proc p with pPgidp := some pgp }
  if rest = [] then setOrphaned s pgp (!pglinked s p)
  else if (s.group pgp).pgorphaned ∧ pglinked s p then setOrphaned s pgp false
  else s

def pgexit (s : Sys Ptr) (prp : Ptr) : Sys Ptr :=
  match (s.proc prp).pPgidp with
  | none => s
  | some pgp =>
      let s := setGroup s pgp { s.group pgp with pglink := (s.group pgp).pglink.erase prp }
      let s := setProc s prp { s.proc prp with pPgidp := none }
      if (s.group pgp).pglink = [] then s
      else if (s.group pgp).pgorphaned then s
      else orphan s pgp fun p => !zombie s p && pglinked s p

/-- One turn of the loop of `pgdetach`. -/
def detachOne (pp : Ptr) (s : Sys Ptr) (cp : Ptr) : Sys Ptr :=
  match (s.proc cp).pPgidp with
  | none => s
  | some pgp =>
      if (s.group pgp).pgorphaned then s
      else orphan s pgp fun mp =>
        mp ≠ pp && (s.proc mp).pParent ≠ some pp && !zombie s mp && pglinked s mp

def pgdetach (s : Sys Ptr) (pp : Ptr) : Sys Ptr := (s.proc pp).pChild.foldl (detachOne pp) s

def pgfind (s : Sys Ptr) (pgid : Pid) : Option Ptr := (s.group pgid).pglink.head?

def pgmembers (s : Sys Ptr) (pgid : Pid) : Bool :=
  (s.group pgid).pglink.any fun prp => (s.proc prp).pPidp ≠ pgid

/-- One turn of the loop of `sess_create`. -/
def leaveOne (pp : Ptr) (mypgp : Option Pid) (s : Sys Ptr) (cp : Ptr) : Sys Ptr :=
  match (s.proc cp).pPgidp with
  | none => s
  | some pgp =>
      if (s.group pgp).pgorphaned ∨ mypgp = some pgp then s else pgorphan s pgp pp 1

/-- `sp` is what `kmem_zalloc` returns. -/
def sessCreate (s : Sys Ptr) (pp : Ptr) (sp : Nat) : Sys Ptr :=
  let s := (s.proc pp).pChild.foldl (leaveOne pp (s.proc pp).pPgidp) s
  let s := pgexit s pp
  let s := { s with sSid := update s.sSid sp (s.proc pp).pPidp }
  let s := setProc s pp { s.proc pp with pSessp := sp }
  pgjoin s pp (s.proc pp).pPidp

def setpgrp (s : Sys Ptr) (p : Ptr) (sp : Nat) : Sys Ptr :=
  if s.sSid (s.proc p).pSessp ≠ (s.proc p).pPidp ∧ ¬ pgmembers s (s.proc p).pPidp then
    sessCreate s p sp
  else s

def setsid (s : Sys Ptr) (p : Ptr) (sp : Nat) : Nat × Sys Ptr :=
  if (s.proc p).pPgidp = some (s.proc p).pPidp ∨ pgmembers s (s.proc p).pPidp then (EPERM, s)
  else (0, sessCreate s p sp)

/-! ### `setpgid` -/

/-- What `MAC_ACCESS` and `pm_denied` say about the process and about the group. -/
structure Access where
  proc : Option Nat
  group : Option Nat

/-- The process whose group is to change. -/
def setpgidProc (s : Sys Ptr) (p : Ptr) (pid : Pid) (acc : Access) : Except Nat Ptr :=
  if pid = 0 then .ok p
  else if pid < 0 ∨ pid ≥ MAXPID then .error EINVAL
  else if pid = (s.proc p).pPidp then .ok p
  else
    match (s.proc p).pChild.find? fun q => (s.proc q).pPidp = pid with
    | none => .error ESRCH
    | some q =>
        if (s.proc q).sexeced then .error EACCES
        else if (s.proc q).pSessp ≠ (s.proc p).pSessp then .error EPERM
        else
          match acc.proc with
          | some error => .error error
          | none => .ok q

/-- The group it is to join, or `none` if it is in it. -/
def setpgidGroup (s : Sys Ptr) (p : Ptr) (pgid : Pid) (acc : Access) : Except Nat (Option Pid) :=
  if s.sSid (s.proc p).pSessp = (s.proc p).pPidp then .error EPERM
  else if pgid < 0 ∨ pgid ≥ MAXPID then .error EINVAL
  else
    let pgid := if pgid = 0 then (s.proc p).pPidp else pgid
    if (s.proc p).pPgidp = some pgid then .ok none
    else if (s.proc p).pPidp = pgid then .ok (some pgid)
    else
      match pgfind s pgid with
      | none => .error EPERM
      | some q =>
          if (s.proc q).pSessp ≠ (s.proc p).pSessp then .error EPERM
          else
            match acc.group with
            | some error => .error error
            | none => .ok (s.proc q).pPgidp

/-- The process goes from its group to another. The old group is looked at again, unless the process
was the first of it. -/
def change (s : Sys Ptr) (p : Ptr) (pgp : Pid) : Sys Ptr :=
  let opgidp := (s.proc p).pPgidp.filter fun g => (s.group g).pglink.head? ≠ some p
  let s := pgjoin (pgexit s p) p pgp
  match opgidp with
  | none => s
  | some g => if (s.group g).pgorphaned then unorphan s g else s

def setpgid (s : Sys Ptr) (p : Ptr) (pid pgid : Pid) (acc : Access) : Nat × Sys Ptr :=
  match setpgidProc s p pid acc with
  | .error error => (error, s)
  | .ok q =>
      match setpgidGroup s q pgid acc with
      | .error error => (error, s)
      | .ok none => (0, s)
      | .ok (some pgp) => (0, change s q pgp)

/-! ### Processes -/

/-- `newproc`: the child is at `cp` and has the id `pid`. -/
def fork (s : Sys Ptr) (pp cp : Ptr) (pid : Pid) : Sys Ptr :=
  let s := setGroup s pid ⟨false, []⟩
  let s := setProc s cp ⟨.sidl, 0, pid, none, (s.proc pp).pSessp, none, [], false⟩
  match (s.proc pp).pPgidp with
  | none => s
  | some pgp =>
      let s := pgjoin s cp pgp
      let s := setProc s cp { s.proc cp with pParent := some pp }
      setProc s pp { s.proc pp with pChild := cp :: (s.proc pp).pChild }

/-- The children of `p` become those of `init`. -/
def giveChildren (procInit p : Ptr) (s : Sys Ptr) : Sys Ptr :=
  let children := (s.proc p).pChild
  let s := children.foldl
    (fun s q => setProc s q { s.proc q with pParent := some procInit }) s
  let s := setProc s procInit
    { s.proc procInit with pChild := children ++ (s.proc procInit).pChild }
  setProc s p { s.proc p with pChild := [] }

def exit (procInit : Ptr) (s : Sys Ptr) (p : Ptr) : Sys Ptr :=
  let s :=
    if (s.proc p).pChild ≠ [] then giveChildren procInit p (pgdetach s p)
    else
      match (s.proc p).pPgidp with
      | none => s
      | some pgp =>
          if (s.group pgp).pgorphaned = false ∧ (s.group pgp).pglink.length ≠ 1 then
            pgorphan s pgp p 0
          else s
  setProc s p { s.proc p with pStat := .szomb }

/-- `freeproc` -/
def freeproc (s : Sys Ptr) (p : Ptr) : Sys Ptr :=
  let s :=
    match (s.proc p).pParent with
    | none => s
    | some pp => setProc s pp { s.proc pp with pChild := (s.proc pp).pChild.erase p }
  pgexit s p

end Svr42.Pgrp
