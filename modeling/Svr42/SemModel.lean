import Svr42.NextList
import Svr42.ResmapModel

/-! Semaphores: `semop`, `semctl` and `semexit`, with the processes asleep in `semop`. A call runs
without interruption from its start, or from the end of a sleep, to its return or the next sleep. -/

namespace Svr42.Sem
open Function

inductive Errno where
  | e2big
  | eagain
  | efault
  | efbig
  | eidrm
  | eintr
  | einval
  | enomem
  | enospc
  | erange
  deriving DecidableEq, Repr

/-- The limits, with the bounds that the tunables have. `nproc` is the number of process slots. -/
structure Seminfo where
  semmni : Nat
  semmnu : Nat
  semmsl : Nat
  semopm : Nat
  semume : Nat
  semvmx : Int
  semaem : Int
  nproc : Nat
  semmnuPos : 0 < semmnu
  semvmxPos : 0 ≤ semvmx
  semvmxLe : semvmx ≤ 32767
  semaemLe : semaem ≤ 16384
  nprocLt : nproc < 0x10000

def ushort (v : Int) : Nat := (v % 0x10000).toNat

def short (v : Int) : Int := v.bmod 0x10000

def int (v : Int) : Int := v.bmod 0x100000000

/-! ### The undo table -/

structure Undo where
  unAoe : Int
  unNum : Nat
  unId : Int
  deriving DecidableEq, Repr

/-- `un_cnt` is the length of `unEnt`. -/
structure SemUndo where
  unNp : Option Nat
  unEnt : List Undo
  deriving DecidableEq, Repr

/-- `sem_undo`, by process slot, the structures it points to, and the heads of the two chains. -/
structure UndoTab where
  semUndo : Nat → Option Nat
  semu : Nat → SemUndo
  semunp : Option Nat
  semfup : Option Nat

def UndoTab.next (t : UndoTab) (up : Nat) : Option Nat := (t.semu up).unNp

def UndoTab.setEnt (t : UndoTab) (up : Nat) (ents : List Undo) : UndoTab :=
  { t with semu := update t.semu up { t.semu up with unEnt := ents } }

def UndoTab.setNp (t : UndoTab) (up : Nat) (np : Option Nat) : UndoTab :=
  { t with semu := update t.semu up { t.semu up with unNp := np } }

/-- The undo structure of the process, or one from the free chain. -/
def claim (p : Nat) (t : UndoTab) : Option (UndoTab × Nat) :=
  match t.semUndo p with
  | some up => some (t, up)
  | none =>
      t.semfup.map fun up =>
        let t := { t with semfup := (t.semu up).unNp }
        ({ t.setNp up none with semUndo := update t.semUndo p (some up) }, up)

def enlist (up : Nat) (t : UndoTab) : UndoTab := { t.setNp up t.semunp with semunp := some up }

/-- `up` is linked out of the undo chain. -/
def delist (info : Seminfo) (up : Nat) (t : UndoTab) : UndoTab :=
  if t.semunp = some up then { t with semunp := (t.semu up).unNp }
  else
    match findPrev t.next up info.semmnu t.semunp with
    | none => t
    | some up2 => t.setNp up2 (t.semu up).unNp

def precedes (id : Int) (num : Nat) (u : Undo) : Bool :=
  u.unId < id || (u.unId = id && u.unNum < num)

def insertEntry (info : Seminfo) (up : Nat) (front rest : List Undo) (val id : Int) (num : Nat)
    (t : UndoTab) : UndoTab × Option Errno :=
  let cnt := (t.semu up).unEnt.length
  if info.semume ≤ cnt then (t, some .einval)
  else
    let t := if cnt = 0 then enlist up t else t
    (t.setEnt up (front ++ ⟨short (-val), num, id⟩ :: rest), none)

def updateEntry (info : Seminfo) (up : Nat) (front : List Undo) (uup : Undo) (back : List Undo)
    (val : Int) (t : UndoTab) : UndoTab × Option Errno :=
  let aoe := short (uup.unAoe - val)
  if info.semaem < aoe ∨ aoe < -info.semaem then
    (t.setEnt up (front ++ { uup with unAoe := short (aoe + val) } :: back), some .erange)
  else if aoe = 0 then
    let t := t.setEnt up (front ++ back)
    if (front ++ back).length = 0 then ((delist info up t).setNp up none, none) else (t, none)
  else (t.setEnt up (front ++ { uup with unAoe := aoe } :: back), none)

/-- The search for the entry, and what is done where it ends. -/
def seekEntry (info : Seminfo) (up : Nat) (val id : Int) (num : Nat) (t : UndoTab) :
    UndoTab × Option Errno :=
  let ents := (t.semu up).unEnt
  let front := ents.takeWhile (precedes id num)
  match ents.dropWhile (precedes id num) with
  | [] => insertEntry info up front [] val id num t
  | uup :: back =>
      if uup.unId = id ∧ uup.unNum = num then updateEntry info up front uup back val t
      else insertEntry info up front (uup :: back) val id num t

/-- Create or update the adjust on exit entry of process `p`. -/
def semaoe (info : Seminfo) (p : Nat) (val id : Int) (num : Nat) (t : UndoTab) : UndoTab × Option Errno :=
  if val = 0 then (t, none)
  else if info.semaem < val ∨ val < -info.semaem then (t, some .erange)
  else
    match claim p t with
    | none => (t, some .enospc)
    | some (t, up) => seekEntry info up val id num t

/-- The entries of one undo structure without those for `low` to `high` of the set. -/
def purge (id : Int) (low high : Nat) : List Undo → List Undo
  | [] => []
  | up :: rest =>
      if id < up.unId then up :: rest
      else if up.unId < id ∨ up.unNum < low then up :: purge id low high rest
      else if high < up.unNum then up :: rest
      else purge id low high rest

/-- `p`, which comes after `pp`, is linked out of the undo chain. -/
def unchain (pp : Option Nat) (p : Nat) (t : UndoTab) : UndoTab :=
  let np := (t.semu p).unNp
  match pp with
  | none => { t with semunp := np }.setNp p none
  | some pp => (t.setNp pp np).setNp p none

/-- The loop of `semunrm` over the undo chain. -/
def semunrmLoop (id : Int) (low high : Nat) : Nat → Option Nat → Option Nat → UndoTab → UndoTab
  | 0, _, _, t => t
  | _ + 1, _, none, t => t
  | fuel + 1, pp, some p, t =>
      let t := t.setEnt p (purge id low high (t.semu p).unEnt)
      let np := (t.semu p).unNp
      if (t.semu p).unEnt.length = 0 then semunrmLoop id low high fuel pp np (unchain pp p t)
      else semunrmLoop id low high fuel (some p) np t

def semunrm (info : Seminfo) (id : Int) (low high : Nat) (t : UndoTab) : UndoTab :=
  semunrmLoop id low high (info.semmnu + 1) none t.semunp t

/-! ### Semaphores and processes -/

structure Sem where
  semval : Nat
  semncnt : Nat
  semzcnt : Nat
  deriving DecidableEq, Repr

/-- `alloc` is IPC_ALLOC of the mode, `semBase` the index of `sem_base` in `sem`. -/
structure SemidDs where
  alloc : Bool
  seq : Nat
  semBase : Nat
  semNsems : Nat
  deriving DecidableEq, Repr

structure Sembuf where
  semNum : Nat
  semOp : Int
  semUndo : Bool
  ipcNowait : Bool
  deriving DecidableEq, Repr

/-- What a process sleeps on: the address of a `semncnt` or a `semzcnt`. -/
inductive Chan where
  | ncnt (k : Nat)
  | zcnt (k : Nat)
  deriving DecidableEq, Repr

structure Call where
  semid : Int
  sops : List Sembuf
  deriving DecidableEq, Repr

/-- A process outside `semop`, asleep in it, or made runnable there and not run since. `counted`: no
wakeup has reset the count since the process went to sleep. -/
inductive Proc where
  | user
  | asleep (call : Call) (c : Chan)
  | ready (call : Call) (c : Chan) (counted : Bool)
  deriving DecidableEq, Repr

structure State where
  sema : Nat → SemidDs
  sem : Nat → Sem
  semmap : Resmap.RMap
  undo : UndoTab
  proc : Nat → Proc

def State.setVal (s : State) (k : Nat) (v : Nat) : State :=
  { s with sem := update s.sem k { s.sem k with semval := v } }

def State.cnt (s : State) : Chan → Nat
  | .ncnt k => (s.sem k).semncnt
  | .zcnt k => (s.sem k).semzcnt

def State.setCnt (s : State) (c : Chan) (v : Nat) : State :=
  match c with
  | .ncnt k => { s with sem := update s.sem k { s.sem k with semncnt := v } }
  | .zcnt k => { s with sem := update s.sem k { s.sem k with semzcnt := v } }

def State.setProc (s : State) (p : Nat) (v : Proc) : State :=
  { s with proc := update s.proc p v }

/-- `wakeprocs` on `c`, and the record that nobody is counted any more. -/
def Proc.wakeup (c : Chan) : Proc → Proc
  | .user => .user
  | .asleep call c' => if c' = c then .ready call c' false else .asleep call c'
  | .ready call c' counted => if c' = c then .ready call c' false else .ready call c' counted

def wakeprocs (c : Chan) (s : State) : State := { s with proc := fun p => (s.proc p).wakeup c }

/-- `if (semp->semncnt) { semp->semncnt = 0; wakeprocs(&semp->semncnt, PRMPT); }` -/
def wakeWaiters (c : Chan) (s : State) : State :=
  if s.cnt c ≠ 0 then wakeprocs c (s.setCnt c 0) else s

/-- The index in `sema` of the set that `id` names. -/
def semconv (info : Seminfo) (s : State) (id : Int) : Option Nat :=
  if id < 0 then none
  else
    let sp := s.sema (id.toNat % info.semmni)
    if sp.alloc = false ∨ id.toNat / info.semmni ≠ sp.seq then none
    else some (id.toNat % info.semmni)

/-! ### `semop` -/

inductive Outcome where
  | ret (error : Option Errno)
  | sleep (c : Chan)
  deriving DecidableEq, Repr

/-- `if (op->sem_flg & SEM_UNDO) semaoe(val, id, op->sem_num)` -/
def undoOp (info : Seminfo) (p : Nat) (op : Sembuf) (val id : Int) (s : State) : State × Option Errno :=
  if op.semUndo = true then
    let r := semaoe info p val id op.semNum s.undo
    ({ s with undo := r.1 }, r.2)
  else (s, none)

/-- Undo the operations `ops`, given last first, of the set at `base`. -/
def semundo (info : Seminfo) (p : Nat) (id : Int) (base : Nat) : List Sembuf → State → State
  | [], s => s
  | op :: ops, s =>
      if op.semOp = 0 then semundo info p id base ops s
      else
        let k := base + op.semNum
        let s := s.setVal k (ushort ((s.sem k).semval - op.semOp))
        semundo info p id base ops (undoOp info p op (short (-op.semOp)) id s).1

/-- The value of semaphore `k` changes by an operation that can be done: `up` is whether those who
wait for an increase are looked for. -/
def change (k : Nat) (semOp : Int) (s : State) : State :=
  let s := s.setVal k (ushort ((s.sem k).semval + semOp))
  let s := if 0 < semOp then wakeWaiters (.ncnt k) s else s
  if (s.sem k).semval = 0 then wakeWaiters (.zcnt k) s else s

/-- The loop over the operations; `done` are those done already, last first. -/
def perform (info : Seminfo) (p : Nat) (id : Int) (base : Nat) :
    List Sembuf → List Sembuf → State → State × Outcome
  | _, [], s => (s, .ret none)
  | done, op :: rest, s =>
      let k := base + op.semNum
      let semval : Int := (s.sem k).semval
      if 0 < op.semOp then
        if info.semvmx < op.semOp + semval then
          (semundo info p id base done s, .ret (some .erange))
        else
          match undoOp info p op op.semOp id s with
          | (s, some error) => (semundo info p id base done s, .ret (some error))
          | (s, none) => perform info p id base (op :: done) rest (change k op.semOp s)
      else if op.semOp < 0 then
        if -op.semOp ≤ semval then
          match undoOp info p op op.semOp id s with
          | (s, some error) => (semundo info p id base done s, .ret (some error))
          | (s, none) => perform info p id base (op :: done) rest (change k op.semOp s)
        else if op.ipcNowait = true then (semundo info p id base done s, .ret (some .eagain))
        else (semundo info p id base done s, .sleep (.ncnt k))
      else if semval ≠ 0 then
        if op.ipcNowait = true then (semundo info p id base done s, .ret (some .eagain))
        else (semundo info p id base done s, .sleep (.zcnt k))
      else perform info p id base (op :: done) rest s

/-- From the label `check` to the return or the sleep, of the set `i`. -/
def attempt (info : Seminfo) (p i : Nat) (call : Call) (s : State) : State × Outcome :=
  match perform info p call.semid (s.sema i).semBase [] call.sops s with
  | (s, .ret error) => (s.setProc p .user, .ret error)
  | (s, .sleep c) => ((s.setCnt c (ushort (s.cnt c + 1))).setProc p (.asleep call c), .sleep c)

def semop (info : Seminfo) (p : Nat) (call : Call) (s : State) : State × Outcome :=
  match semconv info s call.semid with
  | none => (s, .ret (some .einval))
  | some i =>
      if info.semopm < call.sops.length then (s, .ret (some .e2big))
      else if call.sops.length = 0 then (s, .ret (some .enomem)) -- kmem_alloc of no bytes
      else if ∃ op ∈ call.sops, (s.sema i).semNsems ≤ op.semNum then (s, .ret (some .efbig))
      else attempt info p i call s

/-- A sleep has returned 0; `sops` is the operation array as it is now, or none where it cannot be
copied in. -/
def resume (info : Seminfo) (p : Nat) (call : Call) (sops : Option (List Sembuf)) (s : State) :
    State × Outcome :=
  match semconv info s call.semid with
  | none => (s.setProc p .user, .ret (some .eidrm))
  | some i =>
      match sops with
      | none => (s.setProc p .user, .ret (some .efault))
      | some sops => attempt info p i { call with sops := sops } s

/-- A sleep on `c` has returned 1: `if ((semp->semncnt)-- <= 1)`. -/
def interrupt (p : Nat) (c : Chan) (s : State) : State :=
  (if s.cnt c ≤ 1 then wakeprocs c (s.setCnt c 0) else s.setCnt c (s.cnt c - 1)).setProc p .user

/-! ### `semctl` and `semexit` -/

def clear (k : Nat) (s : State) : State :=
  wakeWaiters (.zcnt k) (wakeWaiters (.ncnt k) (s.setVal k 0))

def assign (k val : Nat) (s : State) : State :=
  let s := s.setVal k val
  if val ≠ 0 then wakeWaiters (.ncnt k) s else wakeWaiters (.zcnt k) s

def clearAll : Nat → Nat → State → State
  | 0, _, s => s
  | n + 1, k, s => clearAll n (k + 1) (clear k s)

def assignAll : List Nat → Nat → State → State
  | [], _, s => s
  | val :: vals, k, s => assignAll vals (k + 1) (assign k val s)

/-- IPC_RMID of the set `i`; `old` for IPC_O_RMID. -/
def rmid (info : Seminfo) (old : Bool) (id : Int) (i : Nat) (s : State) : Option State :=
  let sp := s.sema i
  let s := { s with undo := semunrm info id 0 sp.semNsems s.undo }
  let s := clearAll sp.semNsems sp.semBase s
  let seq := if (old = true ∧ 32767 < int (id + info.semmni)) ∨ int (id + info.semmni) < 0 then 0
    else sp.seq + 1
  (Resmap.rmfree s.semmap sp.semNsems (sp.semBase + 1)).map fun semmap =>
    { s with
      semmap := semmap
      sema := update s.sema i { sp with seq := seq, alloc := false } }

/-- SETVAL of semaphore `num` of the set `i`. -/
def setval (info : Seminfo) (id : Int) (i num arg : Nat) (s : State) : State × Option Errno :=
  let sp := s.sema i
  if sp.semNsems ≤ num then (s, some .einval)
  else if info.semvmx < arg then (s, some .erange)
  else
    let s := assign (sp.semBase + num) arg s
    ({ s with undo := semunrm info id num num s.undo }, none)

/-- SETALL of the set `i`, with a value for each of its semaphores. -/
def setall (info : Seminfo) (id : Int) (i : Nat) (semvals : List Nat) (s : State) :
    State × Option Errno :=
  let sp := s.sema i
  if ∃ v ∈ semvals, info.semvmx < v then (s, some .erange)
  else
    let s := { s with undo := semunrm info id 0 sp.semNsems s.undo }
    (assignAll semvals sp.semBase s, none)

/-- One entry of a process that exits. -/
def exitEntry (info : Seminfo) (u : Undo) (s : State) : State :=
  match semconv info s u.unId with
  | none => s
  | some i =>
      let k := (s.sema i).semBase + u.unNum
      let v : Int := (s.sem k).semval + u.unAoe
      if v < 0 ∨ info.semvmx < v then s
      else
        let s := s.setVal k (ushort v)
        let s := if v = 0 then wakeWaiters (.zcnt k) s else s
        if 0 < u.unAoe then wakeWaiters (.ncnt k) s else s

/-- The undo structure of `p` goes to the free chain. -/
def cleanup (p up : Nat) (t : UndoTab) : UndoTab :=
  { t.setNp up t.semfup with
    semfup := some up
    semUndo := update t.semUndo p none }

def semexit (info : Seminfo) (p : Nat) (s : State) : State :=
  match s.undo.semUndo p with
  | none => s
  | some up =>
      let ents := (s.undo.semu up).unEnt
      if ents.length = 0 then { s with undo := cleanup p up s.undo }
      else
        -- the last entry first
        let s := ents.foldr (exitEntry info) s
        { s with undo := cleanup p up (delist info up (s.undo.setEnt up [])) }

/-! ### Runs -/

inductive Event where
  | semget (id : Int)
  | rmid (id : Int)
  | setval (id : Int) (num : Nat) (r : Option Errno)
  | setall (id : Int) (r : Option Errno)
  | semop (p : Nat) (call : Call) (r : Outcome)
  | signal (p : Nat)
  | resume (p : Nat) (call : Call) (r : Outcome)
  | interrupt (p : Nat)
  | semexit (p : Nat)

/-- Calls that are not permitted, or that name no set, change nothing and are left out. A signal may
make any process that is asleep runnable; once it runs its sleep returns 0 or 1. -/
inductive Step (info : Seminfo) : State → Event → State → Prop
  | semget {s : State} {i n a : Nat} {semmap : Resmap.RMap} : i < info.semmni →
      (s.sema i).alloc = false → 0 < n → n ≤ info.semmsl →
      Resmap.rmalloc s.semmap n = some (semmap, a) → a ≠ 0 →
      Step info s (.semget ((s.sema i).seq * info.semmni + i)) { s with
        semmap := semmap
        sema := update s.sema i ⟨true, (s.sema i).seq, a - 1, n⟩ }
  | rmid {s s' : State} {old : Bool} {id : Int} {i : Nat} : semconv info s id = some i →
      rmid info old id i s = some s' → Step info s (.rmid id) s'
  | setval {s : State} {id : Int} {i num arg : Nat} : semconv info s id = some i →
      Step info s (.setval id num (setval info id i num arg s).2) (setval info id i num arg s).1
  | setall {s : State} {id : Int} {i : Nat} {semvals : List Nat} : semconv info s id = some i →
      semvals.length = (s.sema i).semNsems →
      Step info s (.setall id (setall info id i semvals s).2) (setall info id i semvals s).1
  | semop {s : State} {p : Nat} {call : Call} : p < info.nproc → s.proc p = .user →
      Step info s (.semop p call (semop info p call s).2) (semop info p call s).1
  | signal {s : State} {p : Nat} {call : Call} {c : Chan} : s.proc p = .asleep call c →
      Step info s (.signal p) (s.setProc p (.ready call c true))
  | resume {s : State} {p : Nat} {call : Call} {c : Chan} {counted : Bool}
      {sops : Option (List Sembuf)} : s.proc p = .ready call c counted →
      (∀ ops, sops = some ops → ops.length = call.sops.length) →
      Step info s (.resume p { call with sops := sops.getD call.sops } (resume info p call sops s).2)
        (resume info p call sops s).1
  | interrupt {s : State} {p : Nat} {call : Call} {c : Chan} {counted : Bool} :
      s.proc p = .ready call c counted → Step info s (.interrupt p) (interrupt p c s)
  | semexit {s : State} {p : Nat} : p < info.nproc → s.proc p = .user →
      Step info s (.semexit p) (semexit info p s)

/-- `seminit`: no set, all undo structures on the free chain, and the map of semaphores. -/
def boot (info : Seminfo) (semmap : Resmap.RMap) : State where
  sema _ := ⟨false, 0, 0, 0⟩
  sem _ := ⟨0, 0, 0⟩
  semmap := semmap
  undo :=
    { semUndo := fun _ => none
      semu := fun up => ⟨if up + 1 < info.semmnu then some (up + 1) else none, []⟩
      semunp := none
      semfup := some 0 }
  proc _ := .user

end Svr42.Sem
