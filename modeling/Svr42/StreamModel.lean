import Svr42.HeapDll

/-! The queue of a stream: its messages, linked both ways and ordered by class, the runs of its
priority bands, and the flow control of the queue and of every band. `b_next` and `b_prev` are
functions of the address of a message, as are its other fields; a band is its place in the chain
`q_bandp`, whose length is `q_nband`. -/

namespace Svr42.Strm

/-- A message: `b_band`, `db_type`, MSGNOGET of `b_flag`, and `b_wptr - b_rptr` of each of its
blocks. -/
structure Msg where
  bBand : Nat
  dbType : Nat
  noget : Bool
  sizes : List Nat
  deriving DecidableEq, Repr

def qnorm : Nat := 0x00

def qpctl : Nat := 0x80

def Msg.queclass (m : Msg) : Nat := if qpctl ≤ m.dbType then qpctl else qnorm

def datamsg (type : Nat) : Bool := type = 0x00 || type = 0x01 || type = 0x83 || type = 0x0c

def ulong : Nat := 0x100000000

/-- `q_count`, `q_hiwat` and `q_lowat` with QFULL, QWANTW and QBACK, or the same of a band. -/
structure Flow where
  count : Nat
  hiwat : Nat
  lowat : Nat
  full : Bool
  wantw : Bool
  back : Bool
  deriving DecidableEq, Repr

namespace Flow

def add (f : Flow) (sizes : List Nat) : Flow :=
  { f with count := sizes.foldl (fun count n => (count + n) % ulong) f.count }

def sub (f : Flow) (sizes : List Nat) : Flow :=
  { f with count := sizes.foldl (fun count n => (count + (ulong - n % ulong)) % ulong) f.count }

def setFull (f : Flow) : Flow := if f.hiwat ≤ f.count then { f with full := true } else f

def clearFull (f : Flow) : Flow := if f.count < f.hiwat then { f with full := false } else f

def clearWantw (f : Flow) : Flow := { f with wantw := false }

def setBack (f : Flow) : Flow := { f with back := true }

def reset (f : Flow) : Flow := { f with count := 0, full := false }

def relieved (f : Flow) : Bool := f.wantw && f.count ≤ f.lowat

end Flow

structure Qband where
  qbFirst : Option Nat
  qbLast : Option Nat
  flow : Flow
  deriving DecidableEq, Repr

/-- A queue but for its messages: whether it has a service procedure, QENAB, QWANTR and QNOENB, and
the flow control of band 0 and of the others. -/
structure Queue where
  srvp : Bool
  enab : Bool
  wantr : Bool
  noenb : Bool
  flow : Flow
  bandp : List Qband
  blocked : Nat
  deriving DecidableEq, Repr

/-- The queue with its messages, the nearest queue behind it that has a service procedure, the calls
of `allocband` so far, the messages freed, and the bands for which the queue behind has been
back-enabled, in order. -/
structure State where
  links : DList Nat
  msg : Nat → Msg
  q : Queue
  back : Option Queue
  calls : Nat
  freed : List Nat
  log : List Nat

namespace Queue

def band (q : Queue) (pri : Nat) : Option Qband := q.bandp[pri - 1]?

def setBand (q : Queue) (pri : Nat) (qbp : Qband) : Queue :=
  { q with bandp := q.bandp.set (pri - 1) qbp }

def flowOf (q : Queue) (pri : Nat) : Option Flow :=
  if pri = 0 then some q.flow else (q.band pri).map Qband.flow

def modifyFlow (q : Queue) (pri : Nat) (g : Flow → Flow) : Queue :=
  if pri = 0 then { q with flow := g q.flow }
  else
    match q.band pri with
    | none => q
    | some qbp => q.setBand pri { qbp with flow := g qbp.flow }

def modifyFlows (q : Queue) (g : Flow → Flow) : Queue :=
  { q with
    flow := g q.flow
    bandp := q.bandp.map fun qbp => { qbp with flow := g qbp.flow } }

def qenable (q : Queue) : Queue := if q.srvp = true then { q with enab := true } else q

def newBand (q : Queue) : Qband :=
  ⟨none, none, ⟨0, q.flow.hiwat, q.flow.lowat, false, false, false⟩⟩

/-- `while (pri > q_nband)`, with the number of bands that are missing; `avail` says which calls of
`allocband` succeed. -/
def growBands (avail : Nat → Bool) : Nat → Queue → Nat → Queue × Nat × Bool
  | 0, q, calls => (q, calls, true)
  | n + 1, q, calls =>
      if avail calls = true then
        growBands avail n { q with bandp := q.bandp ++ [q.newBand] } (calls + 1)
      else (q, calls + 1, false)

/-- The bytes of a message put on the queue. -/
def charge (q : Queue) (m : Msg) : Queue :=
  if m.bBand = 0 then { q with flow := (q.flow.add m.sizes).setFull }
  else
    match q.band m.bBand with
    | none => q
    | some qbp =>
        let flow := qbp.flow.add m.sizes
        if flow.hiwat ≤ flow.count ∧ flow.full = false then
          { q.setBand m.bBand { qbp with flow := { flow with full := true } } with
            blocked := (q.blocked + 1) % 256 }
        else q.setBand m.bBand { qbp with flow := flow }

/-- The bytes of a message taken off the queue. -/
def discharge (q : Queue) (m : Msg) : Queue :=
  if m.bBand = 0 then { q with flow := (q.flow.sub m.sizes).clearFull }
  else
    match q.band m.bBand with
    | none => q
    | some qbp =>
        let flow := qbp.flow.sub m.sizes
        if flow.count < flow.hiwat ∧ flow.full = true then
          { q.setBand m.bBand { qbp with flow := { flow with full := false } } with
            blocked := (q.blocked + 255) % 256 }
        else q.setBand m.bBand { qbp with flow := flow }

end Queue

/-! ### The queue behind -/

/-- `setqback` on the queue behind. -/
def setqback (avail : Nat → Bool) (st : State) (nq : Queue) (pri : Nat) : State :=
  if pri = 0 then
    { st with back := some (nq.modifyFlow 0 Flow.setBack), log := st.log ++ [0] }
  else
    match nq.growBands avail (pri - nq.bandp.length) st.calls with
    | (nq, calls, false) => { st with back := some nq, calls := calls }
    | (nq, calls, true) =>
        { st with
          back := some (nq.modifyFlow pri Flow.setBack)
          calls := calls
          log := st.log ++ [pri] }

/-- `if (nq) { qenable(nq); setqback(nq, pri); }` -/
def backEnable (avail : Nat → Bool) (st : State) (pri : Nat) : State :=
  match st.back with
  | none => st
  | some nq => setqback avail st nq.qenable pri

/-- The end of `getq` and `rmvq` when the count has come down to the low-water mark. -/
def wakeWriters (avail : Nat → Bool) (st : State) (pri : Nat) (wantw : Bool) : State :=
  let st :=
    if wantw = true then
      backEnable avail { st with q := st.q.modifyFlow pri Flow.clearWantw } pri
    else st
  if st.q.flow.wantw = true ∧ st.q.blocked = 0 ∧ st.q.flow.full = false then backEnable avail st 0
  else st

/-! ### `putq` and `putbq` -/

/-- The band of the message: none for a message of high priority, and otherwise one that there is;
whether that succeeds. -/
def prepare (avail : Nat → Bool) (st : State) (bp : Nat) : State × Bool :=
  let m := st.msg bp
  if m.queclass = qpctl then
    ({ st with msg := Function.update st.msg bp { m with bBand := 0 } }, true)
  else
    match st.q.growBands avail (m.bBand - st.q.bandp.length) st.calls with
    | (q, calls, ok) => ({ st with q := q, calls := calls }, ok)

/-- Past the messages of high priority, and then past those that `stay` before. -/
def pastBands (fuel : Nat) (st : State) (stay : Msg → Bool) : Option Nat :=
  (DList.skip st.links.next (fun tmp => qpctl ≤ (st.msg tmp).dbType) fuel st.links.first).bind
    fun tmp => DList.skip st.links.next (fun tmp => stay (st.msg tmp)) fuel (some tmp)

/-- To the end of the queue, if the last message stays before; or before the first that does not. -/
def linkByBand (fuel : Nat) (st : State) (bp : Nat) (stay : Msg → Bool) : Option (DList Nat) :=
  st.links.last.bind fun tmp =>
    if (st.msg bp).queclass < (st.msg tmp).queclass ∨ stay (st.msg tmp) = true then
      some (st.links.linkEnd bp tmp)
    else (pastBands fuel st stay).map fun tmp => st.links.linkBefore bp tmp

/-- The links as `putq` makes them. -/
def putqLinks (fuel : Nat) (st : State) (bp : Nat) : Option (DList Nat) :=
  let m := st.msg bp
  if st.links.first = none then some (st.links.linkOnly bp)
  else if m.bBand = 0 then
    st.links.last.bind fun tmp =>
      if m.queclass ≤ (st.msg tmp).queclass then some (st.links.linkEnd bp tmp)
      else
        (DList.skip st.links.next (fun tmp => m.queclass ≤ (st.msg tmp).queclass) fuel
          st.links.first).map fun tmp => st.links.linkBefore bp tmp
  else
    (st.q.band m.bBand).bind fun qbp =>
      if qbp.qbFirst = none then linkByBand fuel st bp fun tmp => m.bBand ≤ tmp.bBand
      else qbp.qbLast.map fun tmp => st.links.linkAfter bp tmp

/-- The run of the band as `putq` makes it. -/
def putqEnds (st : State) (bp : Nat) : Queue :=
  let m := st.msg bp
  if m.bBand = 0 then st.q
  else
    match st.q.band m.bBand with
    | none => st.q
    | some qbp =>
        st.q.setBand m.bBand { qbp with
          qbFirst :=
            if st.links.first = none ∨ qbp.qbFirst = none then some bp else qbp.qbFirst
          qbLast := some bp }

/-- The links as `putbq` makes them. -/
def putbqLinks (fuel : Nat) (st : State) (bp : Nat) : Option (DList Nat) :=
  let m := st.msg bp
  if st.links.first = none ∨ m.queclass = qpctl then some (st.links.linkFront bp)
  else if m.bBand = 0 then linkByBand fuel st bp fun tmp => m.bBand < tmp.bBand
  else
    (st.q.band m.bBand).bind fun qbp =>
      match qbp.qbFirst with
      | some tmp => some (st.links.linkBefore bp tmp)
      | none => linkByBand fuel st bp fun tmp => m.bBand < tmp.bBand

/-- The run of the band as `putbq` makes it. -/
def putbqEnds (st : State) (bp : Nat) : Queue :=
  let m := st.msg bp
  if m.bBand = 0 then st.q
  else
    match st.q.band m.bBand with
    | none => st.q
    | some qbp =>
        st.q.setBand m.bBand { qbp with
          qbFirst := some bp
          qbLast := if st.links.first = none ∨ qbp.qbFirst = none then some bp else qbp.qbLast }

/-- The accounting at the end of `putq` and `putbq`, and `qenable` of the queue itself. -/
def account (st : State) (bp : Nat) : State :=
  let q := st.q.charge (st.msg bp)
  { st with
    q :=
      if qnorm < (st.msg bp).queclass ∨ q.noenb = false ∧ q.wantr = true then q.qenable else q }

/-- `fuel` bounds the loops along the queue. -/
def putq (avail : Nat → Bool) (fuel : Nat) (st : State) (bp : Nat) : Option (State × Bool) :=
  match prepare avail st bp with
  | (st, false) => some (st, false)
  | (st, true) =>
      (putqLinks fuel st bp).map fun links =>
        (account { st with links := links, q := putqEnds st bp } bp, true)

def putbq (avail : Nat → Bool) (fuel : Nat) (st : State) (bp : Nat) : Option (State × Bool) :=
  match prepare avail st bp with
  | (st, false) => some (st, false)
  | (st, true) =>
      (putbqLinks fuel st bp).map fun links =>
        (account { st with links := links, q := putbqEnds st bp } bp, true)

/-! ### `rmvq` and `getq` -/

/-- The run of the band without `mp`, as `rmvq` makes it. -/
def rmvqEnds (st : State) (mp : Nat) : Queue :=
  let m := st.msg mp
  if m.bBand = 0 then st.q
  else
    match st.q.band m.bBand with
    | none => st.q
    | some qbp =>
        st.q.setBand m.bBand { qbp with
          qbFirst :=
            if qbp.qbFirst = some mp then
              (st.links.next mp).filter fun next => (st.msg next).bBand = m.bBand
            else qbp.qbFirst
          qbLast :=
            if qbp.qbLast = some mp then
              (st.links.prev mp).filter fun prev => (st.msg prev).bBand = m.bBand
            else qbp.qbLast }

/-- The accounting of `rmvq` and `getq`, and the writers behind. -/
def unaccount (avail : Nat → Bool) (st : State) (mp : Nat) : State :=
  let m := st.msg mp
  let wantw := (st.q.flowOf m.bBand).any fun f => f.wantw
  let q := st.q.discharge m
  if (q.flowOf m.bBand).any (fun f => f.count ≤ f.lowat) = true then
    wakeWriters avail { st with q := q } m.bBand wantw
  else { st with q := q }

def rmvq (avail : Nat → Bool) (st : State) (mp : Nat) : State :=
  unaccount avail { st with links := st.links.unlink mp, q := rmvqEnds st mp } mp

/-- The run of the band without `bp`, the first message of the queue, as `getq` makes it. -/
def getqEnds (st : State) (bp : Nat) : Queue :=
  let m := st.msg bp
  if m.bBand = 0 then st.q
  else
    match st.q.band m.bBand with
    | none => st.q
    | some qbp =>
        if qbp.qbFirst = qbp.qbLast then
          st.q.setBand m.bBand { qbp with qbFirst := none, qbLast := none }
        else st.q.setBand m.bBand { qbp with qbFirst := st.links.next bp }

/-- `while (bp && (bp->b_flag & MSGNOGET))` -/
def pastNoget (st : State) : Nat → Option Nat → Option (Option Nat)
  | 0, _ => none
  | _ + 1, none => some none
  | fuel + 1, some bp =>
      if (st.msg bp).noget = true then pastNoget st fuel (st.links.next bp) else some (some bp)

def getq (avail : Nat → Bool) (fuel : Nat) (st : State) : Option (State × Option Nat) :=
  match st.links.first with
  | none =>
      some (wakeWriters avail { st with q := { st.q with wantr := true } } 0 st.q.flow.wantw, none)
  | some bp =>
      if (st.msg bp).noget = true then
        (pastNoget st fuel (some bp)).map fun
          | none => (st, none)
          | some bp => (rmvq avail st bp, some bp)
      else
        some (unaccount avail { st with
          links := st.links.unlinkFirst bp
          q := { getqEnds st bp with wantr := false } } bp, some bp)

/-! ### The flushes -/

def freemsg (st : State) (mp : Nat) : State := { st with freed := st.freed ++ [mp] }

/-- The queue without its messages. -/
def State.reset (st : State) : State :=
  { st with
    links := (st.links.setFirst none).setLast none
    q := { st.q with
      flow := st.q.flow.reset
      bandp := st.q.bandp.map fun qbp => ⟨none, none, qbp.flow.reset⟩
      blocked := 0 } }

/-- The messages from `mp` on are freed, or put on the queue again. -/
def flushLoop (avail : Nat → Bool) (fuel : Nat) (drop : Msg → Bool) :
    Nat → Option Nat → State → Option State
  | 0, _, _ => none
  | _ + 1, none, st => some st
  | n + 1, some mp, st =>
      let nmp := st.links.next mp
      if drop (st.msg mp) = true then flushLoop avail fuel drop n nmp (freemsg st mp)
      else (putq avail fuel st mp).bind fun r => flushLoop avail fuel drop n nmp r.1

/-- The bands with `qbf` below `bpri`, in turn. -/
def setqbacks (avail : Nat → Bool) (qbf : Nat → Bool) (bpri : Nat) (st : State) : State :=
  (List.range bpri).foldl
    (fun st i =>
      if qbf i = true then
        match st.back with
        | none => st
        | some nq => setqback avail st nq i
      else st) st

/-- The end of `flushq`. `bpri` is an unsigned char. -/
def flushWriters (avail : Nat → Bool) (st : State) : State :=
  let qbf i := (st.q.flowOf i).any Flow.relieved
  let bpri := (st.q.bandp.length + 1) % 256
  let q := st.q.modifyFlows fun f => if f.relieved = true then f.clearWantw else f
  let st := { st with q := q }
  match st.back with
  | none => st
  | some nq =>
      if (List.range (st.q.bandp.length + 1)).any qbf = true then
        setqbacks avail qbf bpri { st with back := some nq.qenable }
      else st

def flushq (avail : Nat → Bool) (fuel : Nat) (st : State) (flag : Bool) : Option State :=
  (flushLoop avail fuel (fun m => flag || datamsg m.dbType) fuel st.links.first st.reset).map
    (flushWriters avail)

/-- `if (flag || datamsg(...)) { rmvq(q, mp); freemsg(mp); }` for a message of the band. -/
def flushMsg (avail : Nat → Bool) (pri : Nat) (flag : Bool) (st : State) (mp : Nat) : State :=
  if (st.msg mp).bBand = pri ∧ (flag || datamsg (st.msg mp).dbType) = true then
    freemsg (rmvq avail st mp) mp
  else st

/-- `while (mp != last)` -/
def bandLoop (avail : Nat → Bool) (pri : Nat) (flag : Bool) (last : Option Nat) :
    Nat → Option Nat → State → Option State
  | 0, _, _ => none
  | n + 1, mp, st =>
      if mp = last then some st
      else
        match mp with
        | none => none
        | some mp =>
            bandLoop avail pri flag last n (st.links.next mp) (flushMsg avail pri flag st mp)

def flushband (avail : Nat → Bool) (fuel : Nat) (st : State) (pri : Nat) (flag : Bool) : Option State :=
  if st.q.bandp.length < pri then some st
  else if pri = 0 then
    (flushLoop avail fuel
      (fun m => m.bBand = 0 && m.dbType < qpctl && (flag || datamsg m.dbType)) fuel
      st.links.first st.reset).map fun st =>
        if st.q.flow.relieved = true then
          backEnable avail { st with q := st.q.modifyFlow 0 Flow.clearWantw } 0
        else st
  else
    (st.q.band pri).bind fun qbp =>
      match qbp.qbFirst with
      | none => some st
      | some mp =>
          let last := if qbp.qbLast = some mp then st.links.next mp else qbp.qbLast
          (bandLoop avail pri flag last fuel (some mp) st).map fun st =>
            match last with
            | none => st
            | some mp => flushMsg avail pri flag st mp

/-- `canput`, on the queue at which its walk along `q_next` stops. -/
def canput (st : State) : State × Bool :=
  if st.q.flow.full = true ∨ st.q.blocked ≠ 0 then
    ({ st with q := st.q.modifyFlow 0 fun f => { f with wantw := true } }, false)
  else (st, true)

def bcanput (st : State) (pri : Nat) : State × Bool :=
  if (st.q.flowOf pri).any (fun f => f.full) = true then
    ({ st with q := st.q.modifyFlow pri fun f => { f with wantw := true } }, false)
  else (st, true)

/-! ### Runs -/

/-- A call on the queue with what it returns, or a change of the queue behind. -/
inductive Event where
  | putq (bp : Nat) (m : Msg) (ok : Bool)
  | putbq (bp : Nat) (m : Msg) (ok : Bool)
  | getq (r : Option Nat)
  | rmvq (mp : Nat)
  | flushq (flag : Bool)
  | flushband (pri : Nat) (flag : Bool)
  | canput (ok : Bool)
  | bcanput (pri : Nat) (ok : Bool)
  | serve (nq : Queue)

def State.Holds (st : State) (mp : Nat) : Prop := ∃ xs, st.links.Spells xs ∧ mp ∈ xs

def State.setMsg (st : State) (bp : Nat) (m : Msg) : State :=
  { st with msg := Function.update st.msg bp m }

/-- The operations on the queue; in between, the queue behind changes as it likes. A message put on
the queue is not on it, and one removed is. -/
inductive Step (avail : Nat → Bool) : State → Event → State → Prop
  | putq {st st' : State} {bp fuel : Nat} {m : Msg} {ok : Bool} : ¬ st.Holds bp → m.bBand < 256 →
      Strm.putq avail fuel (st.setMsg bp m) bp = some (st', ok) →
      Step avail st (.putq bp m ok) st'
  | putbq {st st' : State} {bp fuel : Nat} {m : Msg} {ok : Bool} : ¬ st.Holds bp → m.bBand < 256 →
      Strm.putbq avail fuel (st.setMsg bp m) bp = some (st', ok) →
      Step avail st (.putbq bp m ok) st'
  | getq {st st' : State} {fuel : Nat} {r : Option Nat} :
      Strm.getq avail fuel st = some (st', r) → Step avail st (.getq r) st'
  | rmvq {st : State} {mp : Nat} : st.Holds mp → Step avail st (.rmvq mp) (Strm.rmvq avail st mp)
  | flushq {st st' : State} {fuel : Nat} {flag : Bool} :
      Strm.flushq avail fuel st flag = some st' → Step avail st (.flushq flag) st'
  | flushband {st st' : State} {fuel pri : Nat} {flag : Bool} : pri < 256 →
      Strm.flushband avail fuel st pri flag = some st' → Step avail st (.flushband pri flag) st'
  | canput {st st' : State} {ok : Bool} :
      Strm.canput st = (st', ok) → Step avail st (.canput ok) st'
  | bcanput {st st' : State} {pri : Nat} {ok : Bool} : pri < 256 →
      Strm.bcanput st pri = (st', ok) → Step avail st (.bcanput pri ok) st'
  | serve {st : State} {nq : Queue} : st.back.isSome = true → nq.srvp = true →
      nq.bandp.length ≤ 255 → Step avail st (.serve nq) { st with back := some nq }

end Svr42.Strm
