import Svr42.NextList
import Svr42.RunExec

/-! The list of streams queues whose service procedures are to be run. Messages, `bufcall`, the scan
list and the priority bands are left out. -/

namespace Svr42.Qrun
open Function

inductive Half where
  | read
  | write
  deriving DecidableEq

/-- The two queues of a `struct queinfo`. -/
abbrev Queue (Qip : Type) := Qip × Half

/-- `qenab` is QENAB in `q_flag`, `srvp` is whether `qi_srvp` is not null. -/
structure Sys (Qip : Type) where
  qLink : Queue Qip → Option (Queue Qip)
  qenab : Queue Qip → Bool
  srvp : Queue Qip → Bool
  qhead : Option (Queue Qip)
  qtail : Option (Queue Qip)
  qrunflag : Bool
  inUse : Qip → Bool

variable {Qip : Type} [DecidableEq Qip]

def WR (q : Queue Qip) : Queue Qip := (q.1, .write)

def setLink (s : Sys Qip) (q : Queue Qip) (link : Option (Queue Qip)) : Sys Qip :=
  { s with qLink := update s.qLink q link }

def setEnab (s : Sys Qip) (q : Queue Qip) (qenab : Bool) : Sys Qip :=
  { s with qenab := update s.qenab q qenab }

/-- A pair of queues, with what `setq` makes of them. -/
def allocq (s : Sys Qip) (qip : Qip) (srvp : Half → Bool) : Sys Qip :=
  { s with
    qLink := fun q => if q.1 = qip then none else s.qLink q
    qenab := fun q => if q.1 = qip then false else s.qenab q
    srvp := fun q => if q.1 = qip then srvp q.2 else s.srvp q
    inUse := update s.inUse qip true }

/-- The result tells whether the queue is put on the list; `none` is a null pointer followed. -/
def qenable (s : Sys Qip) (q : Queue Qip) : Option (Sys Qip × Bool) :=
  if s.srvp q = false then some (s, false)
  else if s.qenab q = true then some (s, false)
  else
    let s := setEnab s q true
    let linked :=
      match s.qhead, s.qtail with
      | none, _ => some { s with qhead := some q }
      | some _, none => none
      | some _, some t => some (setLink s t (some q))
    linked.map fun s => (setLink { s with qtail := some q, qrunflag := true } q none, true)

/-- The first queue of the list is taken off; the result tells whether its service procedure is
called. -/
def dequeue (s : Sys Qip) : Option (Sys Qip × Queue Qip × Bool) :=
  s.qhead.map fun q =>
    let s := { s with qhead := s.qLink q, qtail := if s.qLink q = none then none else s.qtail }
    (setEnab s q false, q, s.srvp q)

/-- The loop over the list in `qdetach`: at most `fuel` queues are looked at. -/
def unlinkLoop : Nat → Sys Qip → Queue Qip → Option (Queue Qip) → Option (Queue Qip) → Option (Sys Qip)
  | 0, _, _, _, _ => none
  | _ + 1, s, _, _, none => some s
  | fuel + 1, s, qp, prev, some q =>
      if q = qp ∨ q = WR qp then
        let s :=
          match prev with
          | some p => setLink s p (s.qLink q)
          | none => { s with qhead := s.qLink q }
        let s := if s.qtail = some q then { s with qtail := prev } else s
        unlinkLoop fuel s qp prev (s.qLink q)
      else unlinkLoop fuel s qp (some q) (s.qLink q)

def freeq (s : Sys Qip) (qp : Queue Qip) : Sys Qip :=
  { s with inUse := update s.inUse qp.1 false }

/-- What `qdetach` does after the close procedure, of the read queue `qp`. -/
def qdetach (fuel : Nat) (s : Sys Qip) (qp : Queue Qip) : Option (Sys Qip) :=
  let unlinked :=
    if s.qenab qp = true ∨ s.qenab (WR qp) = true then unlinkLoop fuel s qp none s.qhead
    else some s
  unlinked.map fun s => freeq s qp

/-! ### Runs -/

/-- Where `queuerun` is. -/
inductive Pc (Qip : Type) where
  | idle
  | loop
  | service (q : Queue Qip)

structure World (Qip : Type) where
  sys : Sys Qip
  pc : Pc Qip

inductive Event (Qip : Type) where
  | allocq (qip : Qip) (srvp : Half → Bool)
  | qenable (q : Queue Qip) (put : Bool)
  | qdetach (qip : Qip)
  | queuerun
  | dequeue (q : Queue Qip) (called : Bool)
  | ret
  | done

/-- Queues are enabled and detached at any time, by the service procedures and by others. -/
inductive Step : World Qip → Event Qip → World Qip → Prop
  | allocq {w : World Qip} {qip : Qip} {srvp : Half → Bool} : w.sys.inUse qip = false →
      Step w (.allocq qip srvp) { w with sys := Qrun.allocq w.sys qip srvp }
  | qenable {w : World Qip} {q : Queue Qip} {s : Sys Qip} {put : Bool} :
      w.sys.inUse q.1 = true → Qrun.qenable w.sys q = some (s, put) →
      Step w (.qenable q put) { w with sys := s }
  | qdetach {w : World Qip} {qip : Qip} {s : Sys Qip} : w.sys.inUse qip = true →
      Returns (fun fuel => Qrun.qdetach fuel w.sys (qip, .read)) s →
      Step w (.qdetach qip) { w with sys := s }
  | queuerun {w : World Qip} : w.pc = .idle → w.sys.qrunflag = true →
      Step w .queuerun { w with pc := .loop }
  | dequeue {w : World Qip} {q : Queue Qip} {s : Sys Qip} {called : Bool} : w.pc = .loop →
      Qrun.dequeue w.sys = some (s, q, called) →
      Step w (.dequeue q called) { sys := s, pc := if called then .service q else .loop }
  | ret {w : World Qip} {q : Queue Qip} : w.pc = .service q → Step w .ret { w with pc := .loop }
  | done {w : World Qip} : w.pc = .loop → w.sys.qhead = none →
      Step w .done { sys := { w.sys with qrunflag := false }, pc := .idle }

end Svr42.Qrun
