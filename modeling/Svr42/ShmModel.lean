import Mathlib.Logic.Function.Basic

/-! Shared memory: `shmget`, `shmat`, `kshmdt`, `shmctl`'s `IPC_RMID`, `shmfork`, `shmexit` and
`shmexec`, with what `as_map`, `as_unmap`, `as_dup` and `as_free` do to the segments that map an
`anon_map`, and the calls of `fork`, `vfork`, `exec` and `exit` that lead there. Addresses and lengths
are in pages. -/

namespace Svr42.Shm
open Function

/-- `struct segacct` -/
structure Segacct (A : Type) where
  saAddr : Nat
  saLen : Nat
  saAmp : A
deriving DecidableEq

/-- A segment of the `segvn` driver that maps an `anon_map` shared. -/
structure Seg (A : Type) where
  sBase : Nat
  sSize : Nat
  amp : A
deriving DecidableEq

/-- `struct anon_map`. `used` says that it has been allocated, `frees` how often it has been freed. -/
structure AnonMap where
  used : Bool
  size : Nat
  refcnt : Int
  frees : Nat
deriving DecidableEq

/-- What `shmexit` and `relvm` are called for. -/
inductive Leave where
  | exit
  | exec
deriving DecidableEq

/-- How far a process is: wherever it can sleep in the kernel there is a place of its own. -/
inductive Pc (P I S A : Type) where
  /-- The slot is not used. -/
  | slot
  /-- A child, while `pp` makes it. -/
  | born (pp : P)
  | user
  /-- `shmat`, in `sa_add`, with the identifier locked. -/
  | attach (sp : I) (sap : Segacct A)
  /-- `munmap`, in `as_unmap`. -/
  | unmap (addr size : Nat)
  /-- `kshmdt`, in `as_unmap`: called by `shmdt`, or by `shmexit`. -/
  | detach (sap : Segacct A) (caller : Option Leave)
  /-- `as_dup`, with the segments that are still to be duplicated. -/
  | dup (cp : P) (newas : S) (segs : List (Seg A))
  /-- `as_free` of what `as_dup` could not finish. -/
  | undup (cp : P) (newas : S)
  /-- `shmfork`, with the records that are still to be copied. -/
  | fork (cp : P) (newas : S) (saps : List (Segacct A)) (isvfork : Bool)
  /-- `vfork`, until the child gives the address space back. -/
  | vwait (cp : P)
  | shmexit (caller : Leave)
  | relvm (caller : Leave)
  /-- After `relvm`. -/
  | bare (caller : Leave)
deriving DecidableEq

structure Proc (P I S A : Type) where
  pc : Pc P I S A
  pSegacct : List (Segacct A)
  uNshmseg : Int
  svfork : Bool
  pAs : Option S

/-- `struct shmid_ds`, with the process that has it locked. -/
structure ShmidDs (P A : Type) where
  shmAmp : Option A
  locked : Option P

structure ShmInfo where
  shmmin : Nat
  shmmax : Nat
  shmseg : Int

structure State (P I S A : Type) where
  proc : P → Proc P I S A
  pAiocount : P → Int
  shmem : I → ShmidDs P A
  segs : S → List (Seg A)
  asUsed : S → Bool
  amps : A → AnonMap

def saAdd {A : Type} (nsap : Segacct A) : List (Segacct A) → List (Segacct A)
  | [] => [nsap]
  | sap :: rest => if sap.saAddr < nsap.saAddr then sap :: saAdd nsap rest else nsap :: sap :: rest

def saDel {A : Type} (addr : Nat) : List (Segacct A) → List (Segacct A)
  | [] => []
  | sap :: rest => if sap.saAddr < addr then sap :: saDel addr rest else rest

def saFind {A : Type} (addr : Nat) : List (Segacct A) → Option (Segacct A)
  | [] => none
  | sap :: rest => if sap.saAddr = addr then some sap else saFind addr rest

def AnonMap.hold (amp : AnonMap) : AnonMap := { amp with refcnt := amp.refcnt + 1 }

def AnonMap.release (amp : AnonMap) : AnonMap :=
  if amp.refcnt - 1 = 1 then { amp with refcnt := amp.refcnt - 1, frees := amp.frees + 1 }
  else { amp with refcnt := amp.refcnt - 1 }

def segvnFree (amp : AnonMap) : AnonMap :=
  if amp.refcnt - 1 = 0 then { amp with refcnt := amp.refcnt - 1, frees := amp.frees + 1 }
  else { amp with refcnt := amp.refcnt - 1 }

/-- `segvn_unmap`: what is left of the segment. -/
def segvnUnmap {A : Type} (seg : Seg A) (addr len : Nat) (amp : AnonMap) : List (Seg A) × AnonMap :=
  if addr = seg.sBase ∧ len = seg.sSize then ([], segvnFree amp)
  else if addr = seg.sBase then
    ([{ seg with sBase := seg.sBase + len, sSize := seg.sSize - len }], amp)
  else if addr + len = seg.sBase + seg.sSize then ([{ seg with sSize := seg.sSize - len }], amp)
  else
    ([{ seg with sSize := addr - seg.sBase },
      { seg with sBase := addr + len, sSize := seg.sBase + seg.sSize - (addr + len) }], amp.hold)

def asAddseg {A : Type} (newseg : Seg A) : List (Seg A) → List (Seg A)
  | [] => [newseg]
  | seg :: rest => if newseg.sBase < seg.sBase then newseg :: seg :: rest else seg :: asAddseg newseg rest

def Meets {A : Type} (addr size : Nat) (seg : Seg A) : Prop :=
  addr < seg.sBase + seg.sSize ∧ seg.sBase < addr + size

instance {A : Type} (addr size : Nat) (seg : Seg A) : Decidable (Meets addr size seg) :=
  inferInstanceAs (Decidable (_ ∧ _))

/-- The next segment that `as_unmap` has to do with, with those before it and after it. -/
def nextSeg {A : Type} (addr size : Nat) :
    List (Seg A) → Option (List (Seg A) × Seg A × List (Seg A))
  | [] => none
  | seg :: rest =>
      if Meets addr size seg then some ([], seg, rest)
      else (nextSeg addr size rest).map fun found => (seg :: found.1, found.2.1, found.2.2)

variable {P I S A : Type} [DecidableEq P] [DecidableEq I] [DecidableEq S] [DecidableEq A]

def State.setProc (s : State P I S A) (p : P) (proc : Proc P I S A) : State P I S A :=
  { s with proc := update s.proc p proc }

def State.setPc (s : State P I S A) (p : P) (pc : Pc P I S A) : State P I S A :=
  s.setProc p { s.proc p with pc := pc }

def State.setAio (s : State P I S A) (p : P) (count : Int) : State P I S A :=
  { s with pAiocount := update s.pAiocount p count }

def State.setAmp (s : State P I S A) (a : A) (amp : AnonMap) : State P I S A :=
  { s with amps := update s.amps a amp }

def State.setSegs (s : State P I S A) (as : S) (segs : List (Seg A)) : State P I S A :=
  { s with segs := update s.segs as segs }

def State.setAs (s : State P I S A) (as : S) (used : Bool) : State P I S A :=
  { s with asUsed := update s.asUsed as used }

def State.setShmid (s : State P I S A) (i : I) (sp : ShmidDs P A) : State P I S A :=
  { s with shmem := update s.shmem i sp }

/-! ### The system calls -/

/-- `shmget` of a new identifier: `sp` is a free slot and `a` what `kmem_zalloc` returns. -/
def shmget (info : ShmInfo) (s : State P I S A) (sp : I) (a : A) (size : Nat) : Option (State P I S A) :=
  if (s.shmem sp).shmAmp = none ∧ (s.amps a).used = false then
    if size < info.shmmin ∨ info.shmmax < size then some s
    else
      some ((s.setShmid sp { shmAmp := some a, locked := none }).setAmp a
        { used := true, size := (size + 0xfff) / 0x1000, refcnt := 2, frees := 0 })
  else none

/-- `shmctl` with `IPC_RMID`, by who may. -/
def shmRmid (s : State P I S A) (sp : I) : Option (State P I S A) :=
  if (s.shmem sp).locked = none then
    match (s.shmem sp).shmAmp with
    | none => some s
    | some a =>
        some ((s.setAmp a (s.amps a).release).setShmid sp { shmAmp := none, locked := none })
  else none

/-- `shmat` up to the allocation in `sa_add`. Nothing has changed when it fails. -/
def shmat (info : ShmInfo) (s : State P I S A) (p : P) (sp : I) (addr : Nat) : Option (State P I S A) :=
  if (s.proc p).pc = .user ∧ (s.shmem sp).locked = none then
    match (s.shmem sp).shmAmp, (s.proc p).pAs with
    | some a, some as =>
        if info.shmseg ≤ (s.proc p).uNshmseg then some s
        else if (s.amps a).size = 0 then some s
        else if ∃ seg ∈ s.segs as, Meets addr (s.amps a).size seg then some s
        else
          some ((((s.setSegs as (asAddseg { sBase := addr, sSize := (s.amps a).size, amp := a }
            (s.segs as))).setAmp a (s.amps a).hold).setShmid sp
              { shmAmp := some a, locked := some p }).setPc p
                (.attach sp { saAddr := addr, saLen := (s.amps a).size, saAmp := a }))
    | _, _ => some s
  else none

/-- The rest of `shmat`. -/
def shmatEnd (s : State P I S A) (p : P) : Option (State P I S A) :=
  match (s.proc p).pc with
  | .attach sp sap =>
      some (((s.setAmp sap.saAmp (s.amps sap.saAmp).hold).setShmid sp
        { s.shmem sp with locked := none }).setProc p
          { s.proc p with
            pSegacct := saAdd sap (s.proc p).pSegacct
            uNshmseg := (s.proc p).uNshmseg + 1
            pc := .user })
  | _ => none

/-- `kshmdt` up to `as_unmap`, or an error. -/
def kshmdt (s : State P I S A) (p : P) (addr : Nat) (caller : Option Leave) : Option (State P I S A) :=
  if s.pAiocount p ≠ 0 then none
  else (saFind addr (s.proc p).pSegacct).map fun sap => s.setPc p (.detach sap caller)

def shmdt (s : State P I S A) (p : P) (addr : Nat) : Option (State P I S A) :=
  if (s.proc p).pc = .user then some ((kshmdt s p addr none).getD s) else none

def munmap (s : State P I S A) (p : P) (addr size : Nat) : Option (State P I S A) :=
  if (s.proc p).pc = .user then
    if size = 0 then some s else some (s.setPc p (.unmap addr size))
  else none

/-- The range that `as_unmap` has been called with. -/
def Pc.range : Pc P I S A → Option (Nat × Nat)
  | .unmap addr size => some (addr, size)
  | .detach sap _ => some (sap.saAddr, sap.saLen)
  | _ => none

/-- One segment more in `as_unmap`. -/
def asUnmap (s : State P I S A) (p : P) : Option (State P I S A) :=
  match (s.proc p).pc.range, (s.proc p).pAs with
  | some (addr, size), some as =>
      match nextSeg addr size (s.segs as) with
      | none => none
      | some (front, seg, back) =>
          let raddr := if addr < seg.sBase then seg.sBase else addr
          let ssize := if seg.sBase + seg.sSize < addr + size then seg.sBase + seg.sSize - raddr
            else addr + size - raddr
          let unmapped := segvnUnmap seg raddr ssize (s.amps seg.amp)
          some ((s.setSegs as (front ++ unmapped.1 ++ back)).setAmp seg.amp unmapped.2)
  | _, _ => none

def State.mapped (s : State P I S A) (p : P) : List (Seg A) :=
  match (s.proc p).pAs with
  | none => []
  | some as => s.segs as

def Unmapped (s : State P I S A) (p : P) (addr size : Nat) : Prop :=
  ∀ seg ∈ s.mapped p, ¬ Meets addr size seg

instance (s : State P I S A) (p : P) (addr size : Nat) : Decidable (Unmapped s p addr size) :=
  inferInstanceAs (Decidable (∀ seg ∈ s.mapped p, ¬ Meets addr size seg))

def Pc.after : Option Leave → Pc P I S A
  | none => .user
  | some caller => .shmexit caller

/-- `munmap` returns, or `kshmdt` goes on once `as_unmap` has returned. -/
def unmapEnd (s : State P I S A) (p : P) : Option (State P I S A) :=
  match (s.proc p).pc with
  | .unmap addr size => if Unmapped s p addr size then some (s.setPc p .user) else none
  | .detach sap caller =>
      if Unmapped s p sap.saAddr sap.saLen then
        some ((s.setAmp sap.saAmp (s.amps sap.saAmp).release).setProc p
          { s.proc p with
            uNshmseg := (s.proc p).uNshmseg - 1
            pSegacct := saDel sap.saAddr (s.proc p).pSegacct
            pc := .after caller })
      else none
  | _ => none

/-! ### `fork` and `vfork` -/

/-- A process table slot as `newproc` sets it up; the user area is a copy of the parent's. -/
def newproc (s : State P I S A) (p : P) (isvfork : Bool) (as : Option S) : Proc P I S A :=
  { pc := .born p
    pSegacct := []
    uNshmseg := (s.proc p).uNshmseg
    svfork := isvfork
    pAs := as }

def shmforkSaps (s : State P I S A) (p : P) : List (Segacct A) :=
  if (s.proc p).uNshmseg ≠ 0 then (s.proc p).pSegacct else []

def fork (s : State P I S A) (p cp : P) (newas : S) : Option (State P I S A) :=
  if (s.proc p).pc = .user ∧ (s.proc cp).pc = .slot ∧ s.asUsed newas = false then
    match (s.proc p).pAs with
    | none => none
    | some as =>
        some ((((s.setAs newas true).setAio cp 0).setProc cp
          (newproc s p false (some newas))).setProc p
            { s.proc p with pc := .dup cp newas (s.segs as) })
  else none

/-- One segment more in `as_dup`, or its end. -/
def asDup (s : State P I S A) (p : P) : Option (State P I S A) :=
  match (s.proc p).pc with
  | .dup cp newas (seg :: rest) =>
      some (((s.setSegs newas (s.segs newas ++ [seg])).setAmp seg.amp (s.amps seg.amp).hold).setPc p
        (.dup cp newas rest))
  | .dup cp newas [] => some (s.setPc p (.fork cp newas (shmforkSaps s p) false))
  | _ => none

/-- `as_dup` fails. -/
def asDupFail (s : State P I S A) (p : P) : Option (State P I S A) :=
  match (s.proc p).pc with
  | .dup cp newas _ => some (s.setPc p (.undup cp newas))
  | _ => none

/-- One segment more of the address space that `as_dup` gives up, or the end of the failed `fork`. -/
def asUndup (s : State P I S A) (p : P) : Option (State P I S A) :=
  match (s.proc p).pc with
  | .undup cp newas =>
      match s.segs newas with
      | seg :: rest =>
          some ((s.setSegs newas rest).setAmp seg.amp (segvnFree (s.amps seg.amp)))
      | [] =>
          some (((s.setPc p .user).setProc cp { s.proc cp with pAs := none, pc := .slot }).setAs newas
            false)
  | _ => none

def vfork (s : State P I S A) (p cp : P) : Option (State P I S A) :=
  if (s.proc p).pc = .user ∧ (s.proc cp).pc = .slot then
    match (s.proc p).pAs with
    | none => none
    | some as =>
        some (((s.setAio cp 0).setProc cp (newproc s p true (some as))).setProc p
          { s.proc p with pc := .fork cp as (shmforkSaps s p) true })
  else none

/-- One record more in `shmfork`, or the end of `fork`. -/
def shmfork (s : State P I S A) (p : P) : Option (State P I S A) :=
  match (s.proc p).pc with
  | .fork cp newas (sap :: rest) isvfork =>
      some (((s.setAmp sap.saAmp (s.amps sap.saAmp).hold).setProc cp
        { s.proc cp with pSegacct := saAdd sap (s.proc cp).pSegacct }).setProc p
          { s.proc p with pc := .fork cp newas rest isvfork })
  | .fork cp _ [] isvfork =>
      some ((s.setPc p (if isvfork = true then .vwait cp else .user)).setProc cp
        { s.proc cp with pc := .user })
  | _ => none

/-! ### `exit` and `exec` -/

def exit (s : State P I S A) (p : P) : Option (State P I S A) :=
  if (s.proc p).pc = .user then
    some (s.setPc p (if (s.proc p).uNshmseg ≠ 0 then .shmexit .exit else .relvm .exit))
  else none

/-- `exec` up to `relvm`: `shmexec` is nothing to a process that has its parent's address space. -/
def exec (s : State P I S A) (p : P) : Option (State P I S A) :=
  if (s.proc p).pc = .user then
    if s.pAiocount p ≠ 0 then some s
    else if (s.proc p).uNshmseg ≠ 0 ∧ (s.proc p).svfork = false then
      some (s.setPc p (.shmexit .exec))
    else some (s.setProc p { s.proc p with uNshmseg := 0, pc := .relvm .exec })
  else none

/-- One turn of the loop in `shmexit`. -/
def shmexit (s : State P I S A) (p : P) : Option (State P I S A) :=
  match (s.proc p).pc with
  | .shmexit caller =>
      match (s.proc p).pSegacct with
      | [] =>
          match caller with
          | .exit => some (s.setPc p (.relvm .exit))
          | .exec => some (s.setProc p { s.proc p with uNshmseg := 0, pc := .relvm .exec })
      | sap :: _ =>
          some ((kshmdt s p sap.saAddr (some caller)).getD
            (s.setProc p { s.proc p with pSegacct := saDel sap.saAddr (s.proc p).pSegacct }))
  | _ => none

/-- One segment more in `relvm`'s `as_free`, or its end. -/
def relvm (s : State P I S A) (p : P) : Option (State P I S A) :=
  match (s.proc p).pc, (s.proc p).pAs with
  | .relvm caller, some as =>
      if (s.proc p).svfork = false then
        match s.segs as with
        | seg :: rest => some ((s.setSegs as rest).setAmp seg.amp (segvnFree (s.amps seg.amp)))
        | [] => some ((s.setAs as false).setProc p { s.proc p with pAs := none, pc := .bare caller })
      else none
  | _, _ => none

/-- `relvm` of a process that has the address space of `pp`, which then goes on. -/
def relvmVfork (s : State P I S A) (p pp : P) : Option (State P I S A) :=
  match (s.proc p).pc with
  | .relvm caller =>
      if (s.proc p).svfork = true ∧ (s.proc pp).pc = .vwait p then
        some ((s.setProc p { s.proc p with svfork := false, pAs := none, pc := .bare caller }).setProc
          pp { s.proc pp with pc := .user })
      else none
  | _ => none

def freeproc (s : State P I S A) (p : P) : Option (State P I S A) :=
  if (s.proc p).pc = .bare .exit then some (s.setPc p .slot) else none

/-- `exec` gives the process its new address space. -/
def execEnd (s : State P I S A) (p : P) (nas : S) : Option (State P I S A) :=
  if (s.proc p).pc = .bare .exec ∧ s.asUsed nas = false then
    some ((s.setAs nas true).setProc p { s.proc p with pAs := some nas, pc := .user })
  else none

def aio (s : State P I S A) (p : P) (count : Int) : Option (State P I S A) :=
  some (s.setAio p count)

/-! ### The system -/

inductive Event (P I S A : Type) where
  | shmget (sp : I) (a : A) (size : Nat)
  | shmRmid (sp : I)
  | shmat (p : P) (sp : I) (addr : Nat)
  | shmatEnd (p : P)
  | shmdt (p : P) (addr : Nat)
  | munmap (p : P) (addr size : Nat)
  | asUnmap (p : P)
  | unmapEnd (p : P)
  | fork (p cp : P) (newas : S)
  | asDup (p : P)
  | asDupFail (p : P)
  | asUndup (p : P)
  | vfork (p cp : P)
  | shmfork (p : P)
  | exit (p : P)
  | exec (p : P)
  | shmexit (p : P)
  | relvm (p : P)
  | relvmVfork (p pp : P)
  | freeproc (p : P)
  | execEnd (p : P) (nas : S)
  | aio (p : P) (count : Int)

def step (info : ShmInfo) (s : State P I S A) : Event P I S A → Option (State P I S A)
  | .shmget sp a size => shmget info s sp a size
  | .shmRmid sp => shmRmid s sp
  | .shmat p sp addr => shmat info s p sp addr
  | .shmatEnd p => shmatEnd s p
  | .shmdt p addr => shmdt s p addr
  | .munmap p addr size => munmap s p addr size
  | .asUnmap p => asUnmap s p
  | .unmapEnd p => unmapEnd s p
  | .fork p cp newas => fork s p cp newas
  | .asDup p => asDup s p
  | .asDupFail p => asDupFail s p
  | .asUndup p => asUndup s p
  | .vfork p cp => vfork s p cp
  | .shmfork p => shmfork s p
  | .exit p => exit s p
  | .exec p => exec s p
  | .shmexit p => shmexit s p
  | .relvm p => relvm s p
  | .relvmVfork p pp => relvmVfork s p pp
  | .freeproc p => freeproc s p
  | .execEnd p nas => execEnd s p nas
  | .aio p count => aio s p count

/-- One process, with an address space of its own, and no shared memory. -/
def boot (init : P) (as : S) : State P I S A where
  proc := fun p =>
    { pc := if p = init then .user else .slot
      pSegacct := []
      uNshmseg := 0
      svfork := false
      pAs := if p = init then some as else none }
  pAiocount := fun _ => 0
  shmem := fun _ => { shmAmp := none, locked := none }
  segs := fun _ => []
  asUsed := fun x => decide (x = as)
  amps := fun _ => { used := false, size := 0, refcnt := 0, frees := 0 }

end Svr42.Shm
