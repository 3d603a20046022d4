import Svr42.DispModel

/-! The time-sharing class: the routines of `ts.c` over the dispatcher. -/

namespace Svr42.Ts
open Function

open Disp

def EPERM : Nat := 1
def ENOMEM : Nat := 12
def EINVAL : Nat := 22

def TSKPRI : BitVec 8 := 0x01
def TSBACKQ : BitVec 8 := 0x02
def TSFORK : BitVec 8 := 0x04

def TS_SLEEPWAIT : Int := 4
def TS_SLEEPMAX : Int := 60
def TS_NOCHANGE : Int := -32768
def NZERO : Int := 20

def short (x : Int) : Int := (x + 32768) % 65536 - 32768

def char (x : Int) : Int := (x + 128) % 256 - 128

/-- An entry of `ts_dptbl`. -/
structure Tsdpent where
  tsGlobpri : Nat
  tsQuantum : Int
  tsTqexp : Int
  tsSlpret : Int
  tsMaxwait : Int
  tsLwait : Int
  deriving DecidableEq

structure Tsparms where
  tsUprilim : Int
  tsUpri : Int
  deriving DecidableEq

/-- The tsproc structure of a process. `ts_pstatp`, `ts_pprip` and `ts_pflagp` point into the proc
structure, which the dispatcher has. -/
structure Tsproc where
  tsTimeleft : Int
  tsCpupri : Int
  tsUprilim : Int
  tsUpri : Int
  tsUmdpri : Int
  tsNice : Int
  tsFlags : BitVec 8
  tsDispwait : Int
  tsSleepwait : Int
  deriving DecidableEq

/-- The variables of the master file, as they may be configured. -/
structure Master where
  tsMaxupri : Int
  tsMaxumdpri : Int
  tsMaxkmdpri : Int
  tsKmdpris : Int → Nat
  maxupri_pos : 0 < tsMaxupri
  maxupri_short : tsMaxupri ≤ 32767
  maxumdpri_nonneg : 0 ≤ tsMaxumdpri
  maxumdpri_short : tsMaxumdpri ≤ 32767

def Master.tsmedumdpri (m : Master) : Int := m.tsMaxumdpri >>> (1 : Nat)

/-- `tsPlist` is the list behind `ts_plisthead`. -/
structure Class (Ptr : Type) where
  disp : Dispatcher Ptr
  tsDptbl : List Tsdpent
  tsproc : Ptr → Tsproc
  tsPlist : List Ptr

def Class.dpent {Ptr : Type} (s : Class Ptr) (i : Int) : Option Tsdpent :=
  if 0 ≤ i then s.tsDptbl[i.toNat]? else none

/-- The macro `TS_NEWUMDPRI`. -/
def tsNewumdpri (m : Master) (tspp : Tsproc) : Tsproc :=
  let umdpri := short (tspp.tsCpupri + tspp.tsUpri)
  { tspp with
    tsUmdpri := if umdpri > m.tsMaxumdpri then m.tsMaxumdpri else if umdpri < 0 then 0 else umdpri }

section Routines

variable {Ptr : Type} [DecidableEq Ptr]

def Class.setTsproc (s : Class Ptr) (pp : Ptr) (tspp : Tsproc) : Class Ptr :=
  { s with tsproc := update s.tsproc pp tspp }

def Class.setDisp (s : Class Ptr) (disp : Dispatcher Ptr) : Class Ptr := { s with disp := disp }

def setPri (disp : Dispatcher Ptr) (pp : Ptr) (pri : Nat) : Dispatcher Ptr :=
  { disp with proc := update disp.proc pp { disp.proc pp with pPri := pri } }

def setCurpri (disp : Dispatcher Ptr) (pri : Nat) : Dispatcher Ptr := { disp with curpri := pri }

def runrun (disp : Dispatcher Ptr) : Dispatcher Ptr := { disp with runrun := disp.runrun + 1 }

def backq (tspp : Tsproc) : Tsproc := { tspp with tsFlags := tspp.tsFlags ||| TSBACKQ }

def freshQuantum (tspp : Tsproc) (dp : Tsdpent) : Tsproc := { tspp with tsTimeleft := dp.tsQuantum }

/-! ### Checks -/

def enterUprilim (parms : Tsparms) : Int :=
  if parms.tsUprilim = TS_NOCHANGE then 0 else parms.tsUprilim

def enterUpri (parms : Tsparms) : Int :=
  if parms.tsUpri = TS_NOCHANGE then enterUprilim parms
  else if parms.tsUpri > enterUprilim parms then enterUprilim parms else parms.tsUpri

def reqUprilim (parms : Tsparms) (tspp : Tsproc) : Int :=
  if parms.tsUprilim = TS_NOCHANGE then tspp.tsUprilim else parms.tsUprilim

def reqUpri (parms : Tsparms) (tspp : Tsproc) : Int :=
  let reqtsupri := if parms.tsUpri = TS_NOCHANGE then tspp.tsUpri else parms.tsUpri
  if reqtsupri > reqUprilim parms tspp then reqUprilim parms tspp else reqtsupri

/-- `target` is the process that is to be changed if it is of this class; `cred` is as in
`tsEnterclass`. -/
def tsParmsin (m : Master) (parms : Tsparms) (cred : Option Bool) (target : Option Tsproc) : Nat :=
  if (parms.tsUprilim > m.tsMaxupri ∨ parms.tsUprilim < -m.tsMaxupri) ∧
      parms.tsUprilim ≠ TS_NOCHANGE then EINVAL
  else if (parms.tsUpri > m.tsMaxupri ∨ parms.tsUpri < -m.tsMaxupri) ∧
      parms.tsUpri ≠ TS_NOCHANGE then EINVAL
  else match cred with
    | none => 0
    | some denied =>
        if parms.tsUprilim = TS_NOCHANGE then 0
        else match target with
          | some tspp => if parms.tsUprilim > tspp.tsUprilim ∧ denied then EPERM else 0
          | none => if parms.tsUprilim > 0 ∧ denied then EPERM else 0

/-- What `ts_admin` asks of an entry of a new table. -/
def validEntry (m : Master) (dp : Tsdpent) : Prop :=
  ¬ dp.tsQuantum ≤ 0 ∧ ¬ (dp.tsTqexp > m.tsMaxumdpri ∨ dp.tsTqexp < 0) ∧
    ¬ (dp.tsSlpret > m.tsMaxumdpri ∨ dp.tsSlpret < 0) ∧ ¬ dp.tsMaxwait < 0 ∧
    ¬ (dp.tsLwait > m.tsMaxumdpri ∨ dp.tsLwait < 0)

instance (m : Master) (dp : Tsdpent) : Decidable (validEntry m dp) :=
  inferInstanceAs (Decidable (_ ∧ _))

/-- `TS_SETDPTBL` of `ts_admin`, once the table is read; `ts_globpri` is read-only. -/
def tsSetdptbl (m : Master) (s : Class Ptr) (tbl : List Tsdpent) (denied : Bool) : Nat × Class Ptr :=
  if denied then (EPERM, s)
  else if (tbl.length : Int) ≠ m.tsMaxumdpri + 1 then (EINVAL, s)
  else if ¬ ∀ dp ∈ tbl, validEntry m dp then (EINVAL, s)
  else (0, { s with
    tsDptbl := List.zipWith (fun dp new => { new with tsGlobpri := dp.tsGlobpri }) s.tsDptbl tbl })

def tsGetglobpri (m : Master) (s : Class Ptr) (parms : Tsparms) : Option Nat :=
  let tspri := m.tsmedumdpri + parms.tsUpri
  let tspri := if tspri > m.tsMaxumdpri then m.tsMaxumdpri else if tspri < 0 then 0 else tspri
  (s.dpent tspri).map Tsdpent.tsGlobpri

/-! ### Routines of one process. A read outside `ts_dptbl` has no result. -/

variable [Fintype Ptr]

/-- The process gets the global priority of its `ts_umdpri`: how `ts_enterclass` and `ts_parmsset`
end. -/
def newpri (s : Class Ptr) (pp : Ptr) : Option (Class Ptr) :=
  let tspp := s.tsproc pp
  (s.dpent tspp.tsUmdpri).map fun dp =>
    if pp = s.disp.curproc then
      let disp := setCurpri (setPri s.disp pp dp.tsGlobpri) dp.tsGlobpri
      if (dp.tsGlobpri : Int) > disp.maxrunpri then
        (s.setTsproc pp (freshQuantum tspp dp)).setDisp disp
      else (s.setTsproc pp (backq tspp)).setDisp (runrun disp)
    else
      let deq := dispdeq s.disp pp
      let disp := setPri deq.2 pp dp.tsGlobpri
      if deq.1 then
        let disp := if dp.tsGlobpri > disp.curpri then runrun disp else disp
        (s.setTsproc pp (freshQuantum tspp dp)).setDisp (setbackdq disp pp)
      else (s.setTsproc pp (backq tspp)).setDisp disp

def defaults (m : Master) (mem : Tsproc) : Tsproc :=
  { mem with
    tsUprilim := 0, tsUpri := 0, tsNice := 20
    tsUmdpri := m.tsmedumdpri, tsCpupri := m.tsmedumdpri }

/-- The values supplied. -/
def supplied (m : Master) (mem : Tsproc) (parms : Tsparms) : Tsproc :=
  tsNewumdpri m { mem with
    tsUprilim := enterUprilim parms
    tsUpri := enterUpri parms
    tsNice := char (20 - (20 * enterUpri parms).tdiv m.tsMaxupri)
    tsCpupri := m.tsmedumdpri }

/-- The rest of `ts_enterclass`: the structure goes into the list, the process to its priority. -/
def enterList (s : Class Ptr) (pp : Ptr) (tspp : Tsproc) : Option (Class Ptr) :=
  newpri { s with
    tsproc := update s.tsproc pp
      { tspp with tsSleepwait := 0, tsDispwait := 0, tsFlags := 0 }
    tsPlist := pp :: s.tsPlist } pp

/-- `mem` is the memory `kmem_fast_alloc` found, with what was in it; `cred` is what
`pm_denied(reqpcredp, P_TSHAR)` says if `reqpcredp` is not null. -/
def tsEnterclass (m : Master) (s : Class Ptr) (parms : Option Tsparms) (pp : Ptr) (cred : Option Bool)
    (mem : Option Tsproc) : Option (Nat × Class Ptr) :=
  match mem with
  | none => some (ENOMEM, s)
  | some mem =>
      match parms with
      | none => (enterList s pp (defaults m mem)).map (Prod.mk 0)
      | some parms =>
          if enterUprilim parms > 0 ∧ cred = some true then some (EPERM, s)
          else (enterList s pp (supplied m mem parms)).map (Prod.mk 0)

def tsExitclass (s : Class Ptr) (pp : Ptr) : Class Ptr :=
  { s with tsPlist := s.tsPlist.erase pp }

def tsFork (s : Class Ptr) (pp cp : Ptr) : Option (Class Ptr) :=
  let ptspp := s.tsproc pp
  (s.dpent ptspp.tsUmdpri).map fun dp =>
    { s with
      tsproc := update s.tsproc cp
        { tsTimeleft := dp.tsQuantum, tsUmdpri := ptspp.tsUmdpri, tsCpupri := ptspp.tsCpupri
          tsUprilim := ptspp.tsUprilim, tsUpri := ptspp.tsUpri, tsNice := ptspp.tsNice
          tsSleepwait := 0, tsDispwait := 0, tsFlags := ptspp.tsFlags &&& ~~~TSBACKQ }
      tsPlist := cp :: s.tsPlist }

/-- `pp` is none for the init process. -/
def tsForkret (s : Class Ptr) (cp : Ptr) (pp : Option Ptr) : Class Ptr :=
  let t := s.setDisp (setbackdq s.disp cp)
  match pp with
  | none => t
  | some pp =>
      (t.setTsproc pp { t.tsproc pp with
        tsFlags := (t.tsproc pp).tsFlags ||| (TSBACKQ ||| TSFORK) }).setDisp (runrun t.disp)

/-- The nice value that `ts_parmsset` stores. It scales the user priority the caller has passed. -/
def scaledNice (m : Master) (tsUpri : Int) : Int :=
  let nice := char (20 - (tsUpri * 20).tdiv m.tsMaxupri)
  if nice = 40 then 39 else nice

def setParms (m : Master) (tspp : Tsproc) (parms : Tsparms) : Tsproc :=
  let req := { tspp with tsUprilim := reqUprilim parms tspp, tsUpri := reqUpri parms tspp }
  { tsNewumdpri m req with tsNice := scaledNice m parms.tsUpri }

def tsParmsset (m : Master) (s : Class Ptr) (parms : Tsparms) (pp : Ptr) (cred : Option Bool) :
    Option (Nat × Class Ptr) :=
  let tspp := s.tsproc pp
  if reqUprilim parms tspp > tspp.tsUprilim ∧ cred = some true then some (EPERM, s)
  else
    let tspp := setParms m tspp parms
    if tspp.tsFlags &&& TSKPRI ≠ 0 then some (0, s.setTsproc pp tspp)
    else (newpri (s.setTsproc pp { tspp with tsDispwait := 0 }) pp).map (Prod.mk 0)

/-- `newnice` of `ts_donice`. -/
def newnice (tspp : Tsproc) (incr : Int) : Int :=
  let incr := if incr > 2 * NZERO - 1 then 2 * NZERO - 1 else incr
  let newnice := tspp.tsNice + incr
  if newnice ≥ 2 * NZERO then 2 * NZERO - 1 else if newnice < 0 then 0 else newnice

def niceUpri (m : Master) (newnice : Int) : Int :=
  (-((newnice - NZERO) * m.tsMaxupri)).tdiv NZERO

/-- The result comes with the new nice value, as `*retvalp` gets it. -/
def tsDonice (m : Master) (s : Class Ptr) (pp : Ptr) (incr : Int) : Option (Int × Class Ptr) :=
  let nice := newnice (s.tsproc pp) incr
  let upri := short (niceUpri m nice)
  (tsParmsset m s ⟨upri, upri⟩ pp none).map fun r =>
    (nice - NZERO, r.2.setTsproc pp { r.2.tsproc pp with tsNice := char nice })

def tsPreempt (s : Class Ptr) (pp : Ptr) : Option (Class Ptr) :=
  let tspp := s.tsproc pp
  let flags := tspp.tsFlags &&& (TSBACKQ ||| TSKPRI ||| TSFORK)
  if flags = TSBACKQ then
    (s.dpent tspp.tsUmdpri).map fun dp =>
      (s.setTsproc pp { freshQuantum tspp dp with
        tsDispwait := 0, tsFlags := tspp.tsFlags &&& ~~~TSBACKQ }).setDisp (setbackdq s.disp pp)
  else if flags = TSBACKQ ||| TSKPRI then
    some ((s.setTsproc pp { tspp with tsFlags := tspp.tsFlags &&& ~~~TSBACKQ }).setDisp
      (setbackdq s.disp pp))
  else if flags = TSBACKQ ||| TSFORK then
    some ((s.setTsproc pp { tspp with
      tsDispwait := 0, tsFlags := tspp.tsFlags &&& ~~~(TSBACKQ ||| TSFORK) }).setDisp
        (setbackdq s.disp pp))
  else some (s.setDisp (setfrontdq s.disp pp))

def tsSetrun (s : Class Ptr) (pp : Ptr) : Option (Class Ptr) :=
  let tspp := s.tsproc pp
  let run (tspp : Tsproc) : Class Ptr :=
    (s.setTsproc pp { tspp with tsFlags := tspp.tsFlags &&& ~~~(TSBACKQ ||| TSFORK) }).setDisp
      (setbackdq s.disp pp)
  if tspp.tsFlags &&& TSKPRI = 0 then
    (s.dpent tspp.tsUmdpri).map fun dp => run { freshQuantum tspp dp with tsDispwait := 0 }
  else some (run tspp)

/-- `disp` is the priority the process asks for, of which the low seven bits are used. -/
def tsSleep (m : Master) (s : Class Ptr) (pp : Ptr) (disp : Nat) : Class Ptr :=
  (s.setTsproc pp { s.tsproc pp with tsFlags := (s.tsproc pp).tsFlags ||| TSKPRI }).setDisp
    (setPri s.disp pp (m.tsKmdpris (m.tsMaxkmdpri - (disp % 128 : Nat))))

def tsWakeup (s : Class Ptr) (pp : Ptr) : Class Ptr :=
  (s.setTsproc pp { s.tsproc pp with
    tsFlags := (s.tsproc pp).tsFlags &&& ~~~(TSBACKQ ||| TSFORK) }).setDisp (setbackdq s.disp pp)

/-- The rest of `ts_tick` when the time slice has expired. -/
def expired (m : Master) (s : Class Ptr) (pp : Ptr) : Option (Class Ptr) :=
  let tspp := s.tsproc pp
  let deq := dispdeq s.disp pp
  (s.dpent tspp.tsCpupri).bind fun old =>
    let tspp := tsNewumdpri m { tspp with tsCpupri := old.tsTqexp, tsSleepwait := 0 }
    (s.dpent tspp.tsUmdpri).map fun dp =>
      let tspp := { tspp with tsDispwait := 0 }
      let disp := setCurpri (setPri deq.2 pp dp.tsGlobpri) dp.tsGlobpri
      if deq.1 then
        (s.setTsproc pp (freshQuantum tspp dp)).setDisp (runrun (setbackdq disp pp))
      else (s.setTsproc pp (backq tspp)).setDisp (runrun disp)

def tsTick (m : Master) (s : Class Ptr) (pp : Ptr) : Option (Class Ptr) :=
  let tspp := s.tsproc pp
  if tspp.tsFlags &&& TSKPRI ≠ 0 then some s
  else
    let s := s.setTsproc pp { tspp with tsTimeleft := tspp.tsTimeleft - 1 }
    if tspp.tsTimeleft - 1 = 0 then expired m s pp else some s

/-- The boost a process gets that has slept long enough: its quantum is still the one of the
priority it had. -/
def slept (s : Class Ptr) (tspp : Tsproc) : Option Tsproc :=
  if tspp.tsSleepwait > TS_SLEEPWAIT then
    (s.dpent tspp.tsCpupri).bind fun old =>
      (s.dpent tspp.tsUmdpri).map fun dp =>
        { freshQuantum tspp dp with
          tsCpupri := old.tsSlpret
          tsSleepwait :=
            if tspp.tsSleepwait > TS_SLEEPMAX then TS_SLEEPMAX.tdiv 2
            else tspp.tsSleepwait.tdiv 2 }
  else some tspp

def tsTrapret (m : Master) (s : Class Ptr) (pp : Ptr) : Option (Class Ptr) :=
  let tspp := s.tsproc pp
  if tspp.tsFlags &&& TSKPRI = 0 then some s
  else (slept s tspp).bind fun tspp =>
    let tspp := tsNewumdpri m tspp
    (s.dpent tspp.tsUmdpri).map fun dp =>
      let tspp := { tspp with tsFlags := tspp.tsFlags &&& ~~~TSKPRI, tsDispwait := 0 }
      let disp := setCurpri (setPri s.disp pp dp.tsGlobpri) dp.tsGlobpri
      if disp.npwakecnt = 0 then
        if (disp.curpri : Int) < disp.maxrunpri then (s.setTsproc pp tspp).setDisp (runrun disp)
        else if disp.curpri = disp.maxrunpri ∧ tspp.tsUmdpri = m.tsMaxumdpri then
          (s.setTsproc pp (backq tspp)).setDisp (runrun disp)
        else (s.setTsproc pp tspp).setDisp disp
      else (s.setTsproc pp tspp).setDisp disp

/-- The rest of a round of `ts_update` for a process that has waited too long. -/
def waited (m : Master) (s : Class Ptr) (pp : Ptr) : Option (Class Ptr) :=
  let tspp := s.tsproc pp
  (s.dpent tspp.tsCpupri).bind fun old =>
    let tspp := { tsNewumdpri m { tspp with tsCpupri := old.tsLwait } with tsDispwait := 0 }
    let deq := dispdeq s.disp pp
    (s.dpent tspp.tsUmdpri).map fun dp =>
      let disp := setPri deq.2 pp dp.tsGlobpri
      let disp := if pp = disp.curproc then setCurpri disp dp.tsGlobpri else disp
      if deq.1 then (s.setTsproc pp (freshQuantum tspp dp)).setDisp (setbackdq disp pp)
      else (s.setTsproc pp (backq tspp)).setDisp disp

/-- A round of `ts_update`. -/
def updateOne (m : Master) (s : Class Ptr) (pp : Ptr) : Option (Class Ptr) :=
  let tspp := s.tsproc pp
  let p := s.disp.proc pp
  if tspp.tsFlags &&& TSKPRI ≠ 0 then
    if p.pStat = .ssleep then
      some (s.setTsproc pp { tspp with tsSleepwait := tspp.tsSleepwait + 8 })
    else some s
  else if (p.pStat ≠ .srun ∧ p.pStat ≠ .sonproc) ∨ p.pFlag &&& sPROCIO ≠ 0 then some s
  else
    let wait := short (tspp.tsDispwait + 1)
    let s := s.setTsproc pp { tspp with tsDispwait := wait }
    (s.dpent tspp.tsUmdpri).bind fun dp =>
      if wait ≤ dp.tsMaxwait then some s else waited m s pp

def tsUpdate (m : Master) (s : Class Ptr) : Option (Class Ptr) :=
  (s.tsPlist.foldlM (updateOne m) s).map fun t => t.setDisp (runrun t.disp)

end Routines

end Svr42.Ts
