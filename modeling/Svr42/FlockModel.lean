import Mathlib.Data.Int.Basic
import Mathlib.Data.List.Basic

/-! Record locks of `flock.c`: the list of `filock` entries of a vnode, the chain `sleeplcks` of
requests asleep, and the operations on them. An entry keeps its address, by which `insrtp`, the
channel of `sleep` and the cell given back to `kmem_free` refer to it; the links of a list are its
order. Regions are inclusive, `l_end` being the name the source gives `l_len` once converted. -/

namespace Svr42.Flck

/-- `l_type`. -/
inductive LType where
  | rdlck
  | wrlck
  | unlck
  | other (code : Int)
  deriving DecidableEq, Repr

/-- `struct flock`; `lEnd` is the field `l_len`. -/
structure Flock where
  lType : LType
  lWhence : Int
  lStart : Int
  lEnd : Int
  lSysid : Int
  lPid : Int
  deriving DecidableEq, Repr

/-- The union `stat`: `wakeflg` shares its word with `blk.sysid`. -/
structure Stat where
  wakeflg : Int
  blkPid : Int
  deriving DecidableEq, Repr

/-- An entry at its address. -/
structure Filock where
  addr : Nat
  set : Flock
  stat : Stat
  deriving DecidableEq, Repr

inductive Errno where
  | ebadf
  | einval
  | eagain
  | edeadlk
  | eintr
  | enolck
  | getattr (code : Int)
  deriving DecidableEq, Repr

def maxEnd : Int := 0o17777777777

def int32 (x : Int) : Int := Int.bmod x 0x100000000

def Flock.owner (f : Flock) : Int × Int := (f.lSysid, f.lPid)

def sameOwner (a b : Flock) : Bool := a.lPid = b.lPid && a.lSysid = b.lSysid

def Stat.blk (s : Stat) : Int × Int := (s.wakeflg, s.blkPid)

/-- What the rest of the kernel decides: `tune.t_flckrec`, which calls of `kmem_zalloc` succeed, and
the address each gives, which is never one in use. -/
structure Kmem where
  flckrec : Int
  avail : Nat → Bool
  place : Nat → List Nat → Nat
  place_fresh : ∀ n used, place n used ∉ used

/-- `flckinfo.reccnt`, the calls of `kmem_zalloc` so far, and the addresses in use. -/
structure Mem where
  reccnt : Int
  calls : Nat
  used : List Nat
  deriving DecidableEq, Repr

def Mem.free (mem : Mem) (addr : Nat) : Mem :=
  { mem with reccnt := mem.reccnt - 1, used := mem.used.erase addr }

/-! ### Lists of entries -/

def prevOf : List Filock → Nat → Option Nat
  | f :: g :: rest, addr => if g.addr = addr then some f.addr else prevOf (g :: rest) addr
  | _, _ => none

def insertAfter (new : Filock) (fl : Nat) : List Filock → List Filock
  | [] => []
  | f :: rest => if f.addr = fl then f :: new :: rest else f :: insertAfter new fl rest

/-- `insflck`: the memory after it, and the list with the new entry unless it fails. -/
def insflck (k : Kmem) (mem : Mem) (lckList : List Filock) (lckdat : Flock) (fl : Option Nat) :
    Mem × Option (Nat × List Filock) :=
  if k.flckrec ≤ mem.reccnt then (mem, none)
  else if k.avail mem.calls = false then ({ mem with calls := mem.calls + 1 }, none)
  else
    let addr := k.place mem.calls mem.used
    let new : Filock := ⟨addr, lckdat, ⟨0, 0⟩⟩
    let mem : Mem := ⟨mem.reccnt + 1, mem.calls + 1, addr :: mem.used⟩
    match fl with
    | none => (mem, some (addr, new :: lckList))
    | some fl => (mem, some (addr, insertAfter new fl lckList))

def wakeup (f : Filock) : List Nat := if f.stat.wakeflg = 0 then [] else [f.addr]

def delflck (lckList : List Filock) (fl : Filock) : List Filock :=
  lckList.eraseP fun f => f.addr = fl.addr

/-- `fl->set.l_end = newEnd; WAKEUP(fl)`. -/
def setEnd (lckList : List Filock) (fl : Filock) (newEnd : Int) : List Filock :=
  lckList.map fun f =>
    if f.addr = fl.addr then
      { f with set := { f.set with lEnd := newEnd }, stat := { f.stat with wakeflg := 0 } }
    else f

/-- The last entry of the run from `fl` on that starts before `start`, or `fl` itself: the place at
which `flckadj` puts a piece. -/
def advance (start : Int) (fl : Nat) : List Filock → Nat
  | [] => fl
  | f :: rest => if f.set.lStart < start then advance start f.addr rest else fl

def placeFrom (lckList : List Filock) (fl : Nat) (start : Int) : Nat :=
  advance start fl (lckList.dropWhile fun f => f.addr ≠ fl)

/-! ### `regflck` and `flckadj` -/

/-- Where one end of a region lies relative to a locked section. -/
inductive Place where
  | before
  | start
  | middle
  | «end»
  | after
  deriving DecidableEq, Repr

/-- `regflck`: the S_ and the E_ part. -/
def regflck (ld : Flock) (flp : Filock) : Place × Place :=
  if flp.set.lStart < ld.lStart ∧ ld.lStart - 1 = flp.set.lEnd then (.end, .after)
  else if flp.set.lStart < ld.lStart ∧ flp.set.lEnd < ld.lStart then (.after, .after)
  else
    (if flp.set.lStart < ld.lStart then .middle
      else if ld.lStart = flp.set.lStart then .start else .before,
     if ld.lEnd < flp.set.lEnd then
        if ld.lEnd = flp.set.lStart - 1 then .start
        else if ld.lEnd < flp.set.lStart then .before
        else .middle
      else if ld.lEnd = flp.set.lEnd then .end
      else .after)

/-- The variables of `flckadj`, with the channels woken so far. -/
structure Adj where
  list : List Filock
  mem : Mem
  wakes : List Nat
  ld : Flock
  insrtp : Option Nat

/-- After an entry: on to the next one, out of the loop, or out of the function. -/
inductive AdjNext where
  | more (a : Adj)
  | last (a : Adj)
  | ret (a : Adj) (code : Option Errno)

namespace Adj

@[simps]
def del (a : Adj) (flp : Filock) : Adj :=
  { a with
    list := delflck a.list flp
    mem := a.mem.free flp.addr
    wakes := a.wakes ++ wakeup flp }

/-- Gives up the part of `flp` from the start of the request on. -/
@[simps]
def cutBack (a : Adj) (flp : Filock) : Adj :=
  { a with
    list := setEnd a.list flp (a.ld.lStart - 1)
    wakes := a.wakes ++ wakeup flp
    insrtp := some flp.addr }

@[simps]
def setInsrtp (a : Adj) (p : Option Nat) : Adj := { a with insrtp := p }

@[simps]
def setStart (a : Adj) (start : Int) : Adj := { a with ld := { a.ld with lStart := start } }

@[simps]
def setLdEnd (a : Adj) (e : Int) : Adj := { a with ld := { a.ld with lEnd := e } }

end Adj

/-- The piece of `flp` after the end of the request goes into an entry of its own. -/
def splitTail (k : Kmem) (a : Adj) (flp : Filock) : Adj × Bool :=
  let td := { flp.set with lStart := a.ld.lEnd + 1 }
  match insflck k a.mem a.list td (some (placeFrom a.list flp.addr td.lStart)) with
  | (mem, none) => ({ a with mem := mem }, false)
  | (mem, some (_, list)) => ({ a with mem := mem, list := list }, true)

/-- The case of a lock that goes on after the end of the request: the piece after it, then what
becomes of the lock itself. -/
def splitLock (k : Kmem) (a : Adj) (flp : Filock) (regtyp : Place × Place) : AdjNext :=
  match splitTail k a flp with
  | (a, false) => .ret a (some .enolck)
  | (a, true) => if regtyp = (.middle, .middle) then .last (a.cutBack flp) else .last (a.del flp)

/-- The `switch` of `flckadj` for an entry of the same owner. -/
def adjRegion (k : Kmem) (a : Adj) (flp : Filock) : AdjNext :=
  let same := a.ld.lType = flp.set.lType
  match regflck a.ld flp with
  | (.before, .before) => .last a
  | (.before, .start) =>
      if same then .last ((a.setLdEnd flp.set.lEnd).del flp) else .last a
  | (.start, .end) =>
      if same then .ret a none else .more ((a.setInsrtp (prevOf a.list flp.addr)).del flp)
  | (.start, .after) => .more ((a.setInsrtp (prevOf a.list flp.addr)).del flp)
  | (.before, .end) => if same then .last (a.del flp) else .more (a.del flp)
  | (.before, .after) => .more (a.del flp)
  | (.start, .middle) =>
      let a := a.setInsrtp (prevOf a.list flp.addr)
      if same then .ret a none else splitLock k a flp (.start, .middle)
  | (.middle, .middle) =>
      if same then .ret a none else splitLock k a flp (.middle, .middle)
  | (.before, .middle) =>
      if same then .last ((a.setLdEnd flp.set.lEnd).del flp)
      else splitLock k a flp (.before, .middle)
  | (.middle, .end) => if same then .ret a none else .more (a.cutBack flp)
  | (.middle, .after) =>
      if same then
        .more (((a.setStart flp.set.lStart).setInsrtp (prevOf a.list flp.addr)).del flp)
      else .more (a.cutBack flp)
  | (.end, .after) =>
      if same then
        .more (((a.setStart flp.set.lStart).setInsrtp (prevOf a.list flp.addr)).del flp)
      else .more a
  | (.after, .after) => .more (a.setInsrtp (some flp.addr))
  | _ => .more a

/-- The loop of `flckadj` over the entries from `nflp` on; `nflp` is read before the entry is
changed, and nothing after the entry changes, so the entries to come are those of the list at the
start. `none` is the way to the insertion. -/
def adjLoop (k : Kmem) (a : Adj) : List Filock → Adj × Option (Option Errno)
  | [] => (a, none)
  | flp :: rest =>
      if sameOwner flp.set a.ld = true then
        match adjRegion k a flp with
        | .more a => adjLoop k a rest
        | .last a => (a, none)
        | .ret a code => (a, some code)
      else adjLoop k a rest

/-- The insertion at the end of `flckadj`. -/
def adjInsert (k : Kmem) (a : Adj) : Adj × Option Errno :=
  if a.ld.lType = .unlck then (a, none)
  else
    match insflck k a.mem a.list a.ld
        (a.insrtp.map fun fl => placeFrom a.list fl a.ld.lStart) with
    | (mem, none) => ({ a with mem := mem }, some .enolck)
    | (mem, some (_, list)) => ({ a with mem := mem, list := list }, none)

/-- The entries from `nflp = (insrtp == NULL) ? *lck_list : insrtp` on. -/
def entriesFrom (lckList : List Filock) : Option Nat → List Filock
  | none => lckList
  | some fl => lckList.dropWhile fun f => f.addr ≠ fl

def flckadj (k : Kmem) (mem : Mem) (lckList : List Filock) (insrtp : Option Nat) (ld : Flock) :
    Adj × Option Errno :=
  match adjLoop k ⟨lckList, mem, [], ld, insrtp⟩ (entriesFrom lckList insrtp) with
  | (a, some code) => (a, code)
  | (a, none) => adjInsert k a

/-! ### `blocked` and `deadflck` -/

/-- What the XENIX tests read of the calling process: VIRTUAL_XOUT, ISFCNTL, ISLOCKING and
BADVISE_PRE_SV. -/
structure Xenix where
  virtualXout : Bool
  isFcntl : Bool
  isLocking : Bool
  badvisePreSv : Bool
  deriving DecidableEq, Repr

def conflicts (x : Xenix) (lckdat f : Flock) : Bool :=
  let xenixCompat := (x.virtualXout && x.isFcntl && lckdat.lType = .unlck) || x.badvisePreSv
  f.lType = .wrlck || (xenixCompat && x.isLocking) || (f.lType = .rdlck && lckdat.lType = .wrlck)

/-- The first loop of `blocked`, over the entries that start before the request: the entry found,
`*insrt`, and the entries left. -/
def blockedBefore (x : Xenix) (lckdat : Flock) :
    Option Nat → List Filock → Option Filock × Option Nat × List Filock
  | insrt, [] => (none, insrt, [])
  | insrt, f :: rest =>
      if f.set.lStart < lckdat.lStart then
        if sameOwner f.set lckdat = true then
          if lckdat.lStart - 1 ≤ f.set.lEnd then (none, some f.addr, f :: rest)
          else blockedBefore x lckdat (some f.addr) rest
        else if lckdat.lStart ≤ f.set.lEnd ∧ conflicts x lckdat f.set = true then
          (some f, some f.addr, f :: rest)
        else blockedBefore x lckdat (some f.addr) rest
      else (none, insrt, f :: rest)

/-- The second loop of `blocked`. -/
def blockedFrom (x : Xenix) (lckdat : Flock) : List Filock → Option Filock
  | [] => none
  | f :: rest =>
      if lckdat.lEnd < f.set.lStart then none
      else if lckdat.lStart ≤ f.set.lEnd ∧ sameOwner f.set lckdat = false ∧
          conflicts x lckdat f.set = true then some f
      else blockedFrom x lckdat rest

def blocked (x : Xenix) (flp : List Filock) (lckdat : Flock) : Option Filock × Option Nat :=
  match blockedBefore x lckdat none flp with
  | (some f, insrt, _) => (some f, insrt)
  | (none, insrt, rest) => (blockedFrom x lckdat rest, insrt)

/-- `deadflck`, from the owner of the blocking entry; `none` when the passes allowed are used up. -/
def deadflck (sleeplcks : List Filock) (lckdat : Flock) : Nat → Int × Int → Option Bool
  | 0, _ => none
  | fuel + 1, blck =>
      if blck = lckdat.owner then some true
      else
        match sleeplcks.find? fun sf => sf.set.owner = blck with
        | none => some false
        | some sf => deadflck sleeplcks lckdat fuel sf.stat.blk

end Svr42.Flck
