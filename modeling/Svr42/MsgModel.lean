import Svr42.NextList
import Svr42.ResmapModel

/-! Message queues: `msgget`, `msgsnd`, `msgrcv` and `msgctl`, with the processes asleep in them. A
call runs without interruption from its start, or from the end of a sleep, to its return or the next
sleep. The copying in of a text may sleep too: the sender has its header and its space then, and
keeps the lock of the queue. -/

namespace Svr42.Msg
open Function

inductive Errno where
  | e2big
  | eagain
  | efault
  | eidrm
  | eintr
  | einval
  | enomsg
  deriving DecidableEq, Repr

/-- The limits, with the bounds that the tunables have. -/
structure Msginfo where
  msgmax : Nat
  msgmnb : Nat
  msgmni : Nat
  msgssz : Nat
  msgtql : Nat
  msgssPos : 0 < msgssz
  msgtqlPos : 0 < msgtql

def long (v : Int) : Int := v.bmod 0x100000000

def btoq (info : Msginfo) (x : Nat) : Nat := (x + info.msgssz - 1) / info.msgssz

structure Msg where
  msgNext : Option Nat
  msgType : Int
  msgTs : Nat
  msgSpot : Nat
  deriving DecidableEq, Repr

/-- `alloc`, `rwait` and `wwait` are IPC_ALLOC, MSG_RWAIT and MSG_WWAIT of the mode. -/
structure MsqidDs where
  alloc : Bool
  rwait : Bool
  wwait : Bool
  seq : Nat
  msgFirst : Option Nat
  msgLast : Option Nat
  msgCbytes : Nat
  msgQnum : Nat
  msgQbytes : Nat
  deriving DecidableEq, Repr

/-- A `msgsnd` whose arguments have been looked at. -/
structure Snd where
  msqid : Int
  type : Int
  cnt : Nat
  nowait : Bool
  deriving DecidableEq, Repr

structure Rcv where
  msqid : Int
  msgsz : Nat
  msgtyp : Int
  nowait : Bool
  noerror : Bool
  deriving DecidableEq, Repr

inductive Call where
  | snd (c : Snd)
  | rcv (c : Rcv)
  deriving DecidableEq, Repr

/-- What a process sleeps on: a queue, the `msg_qnum` of one, `msgfp` or `msgmap`. -/
inductive Chan where
  | queue (i : Nat)
  | qnum (i : Nat)
  | msgfp
  | msgmap
  deriving DecidableEq, Repr

/-- A process outside the calls, asleep in one, made runnable there and not run since, or copying in
the text of the message that header `mp` is for, to go to segment `spot`. -/
inductive Proc where
  | user
  | asleep (call : Call) (c : Chan)
  | ready (call : Call) (c : Chan)
  | copying (c : Snd) (mp spot : Nat)
  deriving DecidableEq, Repr

/-- `pool` is the message buffer, a byte at a time. -/
structure State where
  msgque : Nat → MsqidDs
  msglock : Nat → Bool
  msgh : Nat → Msg
  msgfp : Option Nat
  msgmap : Resmap.RMap
  pool : Nat → UInt8
  proc : Nat → Proc

def State.next (s : State) (mp : Nat) : Option Nat := (s.msgh mp).msgNext

def State.setQue (s : State) (i : Nat) (qp : MsqidDs) : State :=
  { s with msgque := update s.msgque i qp }

def State.setMsg (s : State) (mp : Nat) (m : Msg) : State :=
  { s with msgh := update s.msgh mp m }

def State.setNext (s : State) (mp : Nat) (np : Option Nat) : State :=
  s.setMsg mp { s.msgh mp with msgNext := np }

def State.setProc (s : State) (p : Nat) (v : Proc) : State :=
  { s with proc := update s.proc p v }

def State.setLock (s : State) (i : Nat) (b : Bool) : State :=
  { s with msglock := update s.msglock i b }

def Proc.wakeup (c : Chan) : Proc → Proc
  | .user => .user
  | .asleep call c' => if c' = c then .ready call c' else .asleep call c'
  | .ready call c' => .ready call c'
  | .copying snd mp spot => .copying snd mp spot

def wakeprocs (c : Chan) (s : State) : State := { s with proc := fun p => (s.proc p).wakeup c }

inductive Outcome where
  | ret (error : Option Errno)
  | sleep (c : Chan)
  | copyin
  deriving DecidableEq, Repr

/-! ### Headers and space -/

def msgfpFree (mp : Nat) (s : State) : State :=
  let wakes := s.msgfp = none
  let s := s.setNext mp s.msgfp
  let s := if wakes then wakeprocs .msgfp s else s
  { s with msgfp := some mp }

/-- `rmfree(msgmap, size, a)`, which wakes those who wait for space. -/
def freeSpace (size a : Nat) (s : State) : Option State :=
  (Resmap.rmfree s.msgmap size a).map fun msgmap =>
    let wakes := s.msgmap.mapwant ≠ 0 ∧ msgmap.mapwant = 0
    let s := { s with msgmap := msgmap }
    if wakes then wakeprocs .msgmap s else s

/-- Unlink the message `mp`, with predecessor `pmp`, and free what it has. -/
def msgfree (info : Msginfo) (i : Nat) (pmp : Option Nat) (mp : Nat) (s : State) : Option State :=
  let np := s.next mp
  let s :=
    match pmp with
    | none => s.setQue i { s.msgque i with msgFirst := np }
    | some pmp => s.setNext pmp np
  let s := if np = none then s.setQue i { s.msgque i with msgLast := pmp } else s
  let s := s.setQue i { s.msgque i with msgQnum := (s.msgque i).msgQnum - 1 }
  let s :=
    if (s.msgque i).wwait = true then
      wakeprocs (.queue i) (s.setQue i { s.msgque i with wwait := false })
    else s
  let freed :=
    if (s.msgh mp).msgTs ≠ 0 then
      freeSpace (btoq info (s.msgh mp).msgTs) ((s.msgh mp).msgSpot + 1) s
    else some s
  freed.map (msgfpFree mp)

/-- The queue that `id` names; its lock is free. -/
def msgconv (info : Msginfo) (s : State) (id : Int) : Option Nat :=
  if id < 0 then none
  else
    let qp := s.msgque (id.toNat % info.msgmni)
    if qp.alloc = false ∨ id.toNat / info.msgmni ≠ qp.seq then none
    else some (id.toNat % info.msgmni)

def slot (info : Msginfo) (id : Int) : Nat := id.toNat % info.msgmni

/-! ### `msgsnd` -/

/-- `if (qp->msg_perm.mode & MSG_RWAIT)`: whoever waits for a message is woken. -/
def wakeReaders (i : Nat) (s : State) : State :=
  if (s.msgque i).rwait = true then
    wakeprocs (.qnum i) (s.setQue i { s.msgque i with rwait := false })
  else s

/-- The message of header `mp` goes to the end of the queue. -/
def enqueue (i mp : Nat) (type : Int) (cnt spot : Nat) (s : State) : State :=
  let qp := s.msgque i
  let s := s.setQue i { qp with msgQnum := qp.msgQnum + 1, msgCbytes := qp.msgCbytes + cnt }
  let s := s.setMsg mp ⟨none, type, cnt, if cnt = 0 then 0xFFFFFFFF else spot⟩
  let s :=
    match (s.msgque i).msgLast with
    | none => s.setQue i { s.msgque i with msgFirst := some mp, msgLast := some mp }
    | some last => (s.setNext last (some mp)).setQue i { s.msgque i with msgLast := some mp }
  wakeReaders i s

/-- From the label `getres` on, for the queue `i`; none where the map is not well formed. -/
def getres (info : Msginfo) (p i : Nat) (c : Snd) (s : State) : Option (State × Outcome) :=
  let qp := s.msgque i
  if qp.msgQbytes < c.cnt + qp.msgCbytes then
    if c.nowait = true then some (s.setProc p .user, .ret (some .eagain))
    else some ((s.setQue i { qp with wwait := true }).setProc p (.asleep (.snd c) (.queue i)),
      .sleep (.queue i))
  else
    match s.msgfp with
    | none =>
        if c.nowait = true then some (s.setProc p .user, .ret (some .eagain))
        else some (s.setProc p (.asleep (.snd c) .msgfp), .sleep .msgfp)
    | some mp =>
        let s := { s with msgfp := s.next mp }
        if c.cnt = 0 then some ((enqueue i mp c.type 0 0 s).setProc p .user, .ret none)
        else
          (Resmap.rmalloc s.msgmap (btoq info c.cnt)).map fun (msgmap, spot) =>
            let s := { s with msgmap := msgmap }
            if spot = 0 then
              if c.nowait = true then ((msgfpFree mp s).setProc p .user, .ret (some .eagain))
              else
                let s := { s with msgmap := { s.msgmap with mapwant := s.msgmap.mapwant + 1 } }
                ((msgfpFree mp s).setProc p (.asleep (.snd c) .msgmap), .sleep .msgmap)
            else ((s.setLock i true).setProc p (.copying c mp (spot - 1)), .copyin)

/-- `mtype` is none where the type cannot be copied in. -/
def msgsnd (info : Msginfo) (p : Nat) (msqid msgsz : Int) (mtype : Option Int) (nowait : Bool)
    (s : State) : Option (State × Outcome) :=
  match msgconv info s msqid with
  | none => some (s, .ret (some .einval))
  | some i =>
      if msgsz < 0 ∨ info.msgmax < msgsz then some (s, .ret (some .einval))
      else
        match mtype with
        | none => some (s, .ret (some .efault))
        | some type =>
            if type < 1 then some (s, .ret (some .einval))
            else getres info p i ⟨msqid, type, msgsz.toNat, nowait⟩ s

def write (base : Nat) (text : List UInt8) (pool : Nat → UInt8) : Nat → UInt8 :=
  fun k => if base ≤ k ∧ k < base + text.length then text.getD (k - base) 0 else pool k

/-- The copying in of the text of `c` ends; `ok`: all of it has been copied. -/
def copied (info : Msginfo) (p : Nat) (c : Snd) (mp spot : Nat) (text : List UInt8) (ok : Bool)
    (s : State) : Option (State × Outcome) :=
  let i := slot info c.msqid
  let s := { s with pool := write (info.msgssz * spot) text s.pool }
  if ok = true then
    some (((enqueue i mp c.type c.cnt spot s).setLock i false).setProc p .user, .ret none)
  else
    (freeSpace (btoq info c.cnt) (spot + 1) s).map fun s =>
      (((msgfpFree mp s).setLock i false).setProc p .user, .ret (some .efault))

/-! ### `msgrcv` -/

/-- The loop of `msgrcv` over the messages: `smp` and `spmp`. -/
def search (msgtyp : Int) (s : State) :
    Nat → Option Nat → Option Nat → Option Nat → Option Nat → Option Nat × Option Nat
  | 0, _, _, smp, spmp => (smp, spmp)
  | _ + 1, _, none, smp, spmp => (smp, spmp)
  | fuel + 1, pmp, some mp, smp, spmp =>
      let type := (s.msgh mp).msgType
      if 0 < msgtyp then
        if msgtyp ≠ type then search msgtyp s fuel (some mp) (s.next mp) smp spmp
        else (some mp, pmp)
      else if type ≤ long (-msgtyp) then
        match smp with
        | none => search msgtyp s fuel (some mp) (s.next mp) (some mp) pmp
        | some best =>
            if (s.msgh best).msgType ≤ type then search msgtyp s fuel (some mp) (s.next mp) smp spmp
            else search msgtyp s fuel (some mp) (s.next mp) (some mp) pmp
      else search msgtyp s fuel (some mp) (s.next mp) smp spmp

/-- The message to be received from the queue `i`, and its predecessor. -/
def select (info : Msginfo) (i : Nat) (msgtyp : Int) (s : State) : Option Nat × Option Nat :=
  if msgtyp = 0 then ((s.msgque i).msgFirst, none)
  else search msgtyp s (info.msgtql + 1) none (s.msgque i).msgFirst none none

def read (base : Nat) (pool : Nat → UInt8) (size : Nat) : List UInt8 :=
  (List.range size).map fun k => pool (base + k)

/-- What `msgrcv` gives: an error, a type with the text, or nothing when it sleeps. -/
inductive Received where
  | error (e : Errno)
  | msg (type : Int) (text : List UInt8)
  | sleep (c : Chan)
  deriving DecidableEq, Repr

/-- From the label `findmsg` on, for the queue `i`; `ok`: the message can be copied out. -/
def findmsg (info : Msginfo) (p i : Nat) (c : Rcv) (ok : Bool) (s : State) : Option (State × Received) :=
  match select info i c.msgtyp s with
  | (some smp, spmp) =>
      let m := s.msgh smp
      if c.msgsz < m.msgTs ∧ c.noerror = false then some (s.setProc p .user, .error .e2big)
      else
        let sz := if c.msgsz < m.msgTs then c.msgsz else m.msgTs
        if ok = false then some (s.setProc p .user, .error .efault)
        else
          let text := read (info.msgssz * m.msgSpot) s.pool sz
          let qp := s.msgque i
          (msgfree info i spmp smp (s.setQue i { qp with msgCbytes := qp.msgCbytes - m.msgTs })).map
            fun s => (s.setProc p .user, .msg m.msgType text)
  | (none, _) =>
      if c.nowait = true then some (s.setProc p .user, .error .enomsg)
      else some ((s.setQue i { s.msgque i with rwait := true }).setProc p (.asleep (.rcv c) (.qnum i)),
        .sleep (.qnum i))

def msgrcv (info : Msginfo) (p : Nat) (msqid msgsz msgtyp : Int) (nowait noerror ok : Bool) (s : State) :
    Option (State × Received) :=
  match msgconv info s msqid with
  | none => some (s, .error .einval)
  | some i =>
      if msgsz < 0 then some (s, .error .einval)
      else findmsg info p i ⟨msqid, msgsz.toNat, msgtyp, nowait, noerror⟩ ok s

/-! ### `msgctl` and `msgget` -/

/-- `while (qp->msg_first) msgfree(qp, NULL, qp->msg_first, PRMPT);` -/
def freeAll (info : Msginfo) (i : Nat) : Nat → State → Option State
  | 0, s => some s
  | fuel + 1, s =>
      match (s.msgque i).msgFirst with
      | none => some s
      | some mp => (msgfree info i none mp s).bind (freeAll info i fuel)

def int (v : Int) : Int := v.bmod 0x100000000

/-- What IPC_RMID does to the queue `i` when its messages are gone. -/
def retire (i seq : Nat) (s : State) : State :=
  let qp := s.msgque i
  let s := s.setQue i { qp with msgCbytes := 0, seq := seq }
  let s := if qp.rwait = true then wakeprocs (.qnum i) s else s
  let s := if qp.wwait = true then wakeprocs (.queue i) s else s
  s.setQue i { s.msgque i with alloc := false, rwait := false, wwait := false }

/-- IPC_RMID of the queue `i`; `old` for IPC_O_RMID. -/
def rmid (info : Msginfo) (old : Bool) (id : Int) (i : Nat) (s : State) : Option State :=
  (freeAll info i (info.msgtql + 1) s).map fun s =>
    retire i (if (old = true ∧ 32767 < int (id + info.msgmni)) ∨ int (id + info.msgmni) < 0 then 0
      else (s.msgque i).seq + 1) s

def ipcset (i qbytes : Nat) (s : State) : State :=
  s.setQue i { s.msgque i with msgQbytes := qbytes }

/-- A new queue. -/
def msgget (info : Msginfo) (i : Nat) (s : State) : State :=
  s.setQue i { s.msgque i with
    alloc := true
    rwait := false
    wwait := false
    msgFirst := none
    msgLast := none
    msgQnum := 0
    msgQbytes := info.msgmnb }

/-- A sleep of `msgsnd` has returned 0. -/
def resumeSnd (info : Msginfo) (p : Nat) (c : Snd) (s : State) : Option (State × Outcome) :=
  match msgconv info s c.msqid with
  | none => some (s.setProc p .user, .ret (some .eidrm))
  | some i => getres info p i c s

def resumeRcv (info : Msginfo) (p : Nat) (c : Rcv) (ok : Bool) (s : State) : Option (State × Received) :=
  match msgconv info s c.msqid with
  | none => some (s.setProc p .user, .error .eidrm)
  | some i => findmsg info p i c ok s

/-- A sleep of `msgsnd` on `chan` has returned 1. -/
def interruptSnd (info : Msginfo) (p : Nat) (c : Snd) (chan : Chan) (s : State) : State :=
  match msgconv info s c.msqid with
  | none => s.setProc p .user
  | some i =>
      if chan = .queue i then
        (wakeprocs (.queue i) (s.setQue i { s.msgque i with wwait := false })).setProc p .user
      else s.setProc p .user

/-! ### Runs -/

inductive Event where
  | msgget (i : Nat)
  | rmid (i : Nat)
  | ipcset (i qbytes : Nat)
  | msgsnd (p : Nat) (c : Snd) (r : Outcome)
  | copied (p : Nat) (c : Snd) (text : List UInt8) (r : Outcome)
  | msgrcv (p : Nat) (c : Rcv) (r : Received)
  | signal (p : Nat)
  | interrupt (p : Nat)

def Call.msqid : Call → Int
  | .snd c => c.msqid
  | .rcv c => c.msqid

def Unlocked (info : Msginfo) (s : State) (id : Int) : Prop :=
  id < 0 ∨ s.msglock (slot info id) = false

/-- Calls that are not permitted, or that only look, change nothing and are left out. A signal may
make any process that is asleep runnable; once it runs its sleep returns 0 or 1, and one that has to
wait for a lock then leaves the call when a signal comes. -/
inductive Step (info : Msginfo) : State → Event → State → Prop
  | msgget {s : State} {i : Nat} : i < info.msgmni → (s.msgque i).alloc = false →
      Step info s (.msgget i) (msgget info i s)
  | rmid {s s' : State} {old : Bool} {id : Int} {i : Nat} : msgconv info s id = some i →
      Unlocked info s id → rmid info old id i s = some s' → Step info s (.rmid i) s'
  | ipcset {s : State} {id : Int} {i qbytes : Nat} : msgconv info s id = some i →
      Unlocked info s id → Step info s (.ipcset i qbytes) (ipcset i qbytes s)
  | msgsnd {s s' : State} {p : Nat} {msqid msgsz : Int} {mtype : Option Int} {nowait : Bool}
      {r : Outcome} : s.proc p = .user → Unlocked info s msqid →
      msgsnd info p msqid msgsz mtype nowait s = some (s', r) →
      Step info s (.msgsnd p ⟨msqid, mtype.getD 0, msgsz.toNat, nowait⟩ r) s'
  | resumeSnd {s s' : State} {p : Nat} {c : Snd} {chan : Chan} {r : Outcome} :
      s.proc p = .ready (.snd c) chan → Unlocked info s c.msqid →
      resumeSnd info p c s = some (s', r) → Step info s (.msgsnd p c r) s'
  | copied {s s' : State} {p : Nat} {c : Snd} {mp spot : Nat} {text : List UInt8} {ok : Bool}
      {r : Outcome} : s.proc p = .copying c mp spot → text.length ≤ c.cnt →
      (ok = true → text.length = c.cnt) → copied info p c mp spot text ok s = some (s', r) →
      Step info s (.copied p c text r) s'
  | msgrcv {s s' : State} {p : Nat} {msqid msgsz msgtyp : Int} {nowait noerror ok : Bool}
      {r : Received} : s.proc p = .user → Unlocked info s msqid → long msgtyp = msgtyp →
      msgrcv info p msqid msgsz msgtyp nowait noerror ok s = some (s', r) →
      Step info s (.msgrcv p ⟨msqid, msgsz.toNat, msgtyp, nowait, noerror⟩ r) s'
  | resumeRcv {s s' : State} {p : Nat} {c : Rcv} {chan : Chan} {ok : Bool} {r : Received} :
      s.proc p = .ready (.rcv c) chan → Unlocked info s c.msqid →
      resumeRcv info p c ok s = some (s', r) → Step info s (.msgrcv p c r) s'
  | signal {s : State} {p : Nat} {call : Call} {c : Chan} : s.proc p = .asleep call c →
      Step info s (.signal p) (s.setProc p (.ready call c))
  | interruptSnd {s : State} {p : Nat} {c : Snd} {chan : Chan} :
      s.proc p = .ready (.snd c) chan → Unlocked info s c.msqid →
      Step info s (.interrupt p) (interruptSnd info p c chan s)
  | interruptRcv {s : State} {p : Nat} {c : Rcv} {chan : Chan} :
      s.proc p = .ready (.rcv c) chan → Step info s (.interrupt p) (s.setProc p .user)
  | leave {s : State} {p : Nat} {call : Call} {chan : Chan} : s.proc p = .ready call chan →
      ¬ Unlocked info s call.msqid → Step info s (.interrupt p) (s.setProc p .user)

/-- `msginit`: no queue, all headers on the free list, and the map of segments. -/
def boot (info : Msginfo) (msgmap : Resmap.RMap) : State where
  msgque _ := ⟨false, false, false, 0, none, none, 0, 0, 0⟩
  msglock _ := false
  msgh mp := ⟨if mp + 1 < info.msgtql then some (mp + 1) else none, 0, 0, 0⟩
  msgfp := some 0
  msgmap := msgmap
  pool _ := 0
  proc _ := .user

end Svr42.Msg
