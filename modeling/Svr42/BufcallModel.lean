import Mathlib.Logic.Function.Basic

/-! The list of bufcall requests: `bufcall`, `esbbcall`, `unbufcall`, `strunbcall`, and the scan of
`queuerun`. An operation that would follow a bad pointer has no result. -/

namespace Svr42.Bufcall
open Function

/-- The part of a strevent that a bufcall request uses. -/
structure Strevent where
  seFunc : Nat
  seArg : Nat
  seSize : Int
  seNext : Option Nat
  deriving DecidableEq, Repr

/-- What is asked for. -/
structure Request where
  seFunc : Nat
  seArg : Nat
  seSize : Int
  deriving DecidableEq, Repr

def Strevent.request (sep : Strevent) : Request := ⟨sep.seFunc, sep.seArg, sep.seSize⟩

/-- `queuerun` in its scan of the list: `nevent`, `count`, and the event whose function is being
called. -/
structure Scan where
  nevent : Nat
  count : Int
  sep : Option Nat
  deriving DecidableEq, Repr

/-- `cells` has the stream events that `sealloc` has given out. -/
structure Strbcalls where
  cells : Nat → Option Strevent
  bcHead : Option Nat
  bcTail : Option Nat
  strbcwait : Bool
  strbcflag : Bool
  scan : Option Scan

def toInt (size : Nat) : Int := (size : Int).bmod 0x100000000

/-- The event is linked in after the last one. -/
def append (s : Strbcalls) (sep : Nat) : Option Strbcalls :=
  match s.bcHead with
  | none => some { s with bcHead := some sep, bcTail := some sep }
  | some _ =>
      s.bcTail.bind fun tail =>
        (s.cells tail).map fun last =>
          { s with
            cells := update s.cells tail (some { last with seNext := some sep })
            bcTail := some sep }

def register (s : Strbcalls) (sep : Nat) (func arg : Nat) (size : Int) : Option Strbcalls :=
  (append { s with cells := update s.cells sep (some ⟨func, arg, size, none⟩) } sep).map
    fun s => { s with strbcwait := true }

def bufcall (s : Strbcalls) (sep size func arg : Nat) : Option Strbcalls :=
  register s sep func arg (toInt size)

def esbbcall (s : Strbcalls) (sep func arg : Nat) : Option Strbcalls :=
  register s sep func arg (-1)

def sefree (s : Strbcalls) (sep : Nat) : Strbcalls :=
  { s with cells := update s.cells sep none }

/-- The loop that looks for an event from `sep` on, after `psep`. `fuel` bounds its rounds. -/
def search (hit : Nat → Strevent → Bool) (cells : Nat → Option Strevent) :
    Nat → Option Nat → Option Nat → Option (Option Nat × Option Nat)
  | 0, _, _ => none
  | _ + 1, psep, none => some (psep, none)
  | fuel + 1, psep, some sep =>
      (cells sep).bind fun cell =>
        if hit sep cell then some (psep, some sep)
        else search hit cells fuel (some sep) cell.seNext

/-- The event is taken from between `psep` and the next one. -/
def unlink (s : Strbcalls) (psep : Option Nat) (sep : Nat) : Option Strbcalls :=
  (s.cells sep).bind fun cell =>
    let bcTail := if some sep = s.bcTail then psep else s.bcTail
    match psep with
    | none => some (sefree { s with bcHead := cell.seNext, bcTail := bcTail } sep)
    | some psep =>
        (s.cells psep).map fun prev =>
          sefree { s with
            cells := update s.cells psep (some { prev with seNext := cell.seNext })
            bcTail := bcTail } sep

/-- The first event that is a `hit` is removed and freed. -/
def remove (hit : Nat → Strevent → Bool) (fuel : Nat) (s : Strbcalls) :
    Option (Strbcalls × Option (Nat × Request)) :=
  (search hit s.cells fuel none s.bcHead).bind fun (psep, sep) =>
    match sep with
    | none => some (s, none)
    | some sep =>
        (s.cells sep).bind fun cell =>
          (unlink s psep sep).map fun s => (s, some (sep, cell.request))

def unbufcall (id : Nat) : Nat → Strbcalls → Option (Strbcalls × Option (Nat × Request)) :=
  remove fun sep _ => sep = id

def strunbcall (setrun : Nat) (size : Int) (p : Nat) :
    Nat → Strbcalls → Option (Strbcalls × Option (Nat × Request)) :=
  remove fun _ cell => cell.seArg = p ∧ cell.seFunc = setrun ∧ cell.seSize = size

/-- What `kmem_free` does for those who wait: `setqsched` is left to the scheduler. -/
def kmemFree (s : Strbcalls) : Strbcalls :=
  if s.strbcwait && !s.strbcflag then { s with strbcflag := true } else s

/-- `for (sep = strbcalls.bc_head; sep; sep = sep->se_next) nevent++;` -/
def countEvents (cells : Nat → Option Strevent) : Nat → Option Nat → Option Nat
  | 0, _ => none
  | _ + 1, none => some 0
  | fuel + 1, some sep =>
      (cells sep).bind fun cell => (countEvents cells fuel cell.seNext).map (· + 1)

def scanStart (count : Int) (fuel : Nat) (s : Strbcalls) : Option Strbcalls :=
  (countEvents s.cells fuel s.bcHead).map fun nevent =>
    { s with strbcwait := false, strbcflag := false, scan := some ⟨nevent, count, none⟩ }

/-- The head of the list is moved to its end. -/
def rotate (s : Strbcalls) (sep : Nat) (cell : Strevent) : Option Strbcalls :=
  let cells := update s.cells sep (some { cell with seNext := none })
  s.bcTail.bind fun tail =>
    (cells tail).map fun last =>
      { s with
        cells := update cells tail (some { last with seNext := some sep })
        bcHead := cell.seNext
        bcTail := some sep }

def scanEnd (s : Strbcalls) : Strbcalls :=
  match s.bcHead with
  | some _ => { s with strbcwait := true, scan := none }
  | none => { s with bcTail := none, scan := none }

/-- What happens to the list, with the request it happens to: `call` and `ret` are the call of a
request's function and its return, `retry` puts a request off. -/
inductive Event where
  | register (id : Nat) (r : Request)
  | refuse
  | cancel (gone : Option (Nat × Request))
  | kmemFree
  | scan (count : Int)
  | call (id : Nat) (r : Request)
  | ret
  | retry (id : Nat) (r : Request)
  | done

/-- A request may be made or cancelled at any time, also by the function of another. `sealloc` gives
an event that is not in use, or none. -/
inductive Step (setrun : Nat) : Strbcalls → Event → Strbcalls → Prop
  | bufcall {s s' : Strbcalls} {sep size func arg : Nat} : 0 < sep → s.cells sep = none →
      bufcall s sep size func arg = some s' →
      Step setrun s (.register sep ⟨func, arg, toInt size⟩) s'
  | esbbcall {s s' : Strbcalls} {sep func arg : Nat} : 0 < sep → s.cells sep = none →
      esbbcall s sep func arg = some s' →
      Step setrun s (.register sep ⟨func, arg, -1⟩) s'
  | refuse {s : Strbcalls} : Step setrun s .refuse s
  | unbufcall {s s' : Strbcalls} {id fuel : Nat} {gone : Option (Nat × Request)} :
      unbufcall id fuel s = some (s', gone) → Step setrun s (.cancel gone) s'
  | strunbcall {s s' : Strbcalls} {size : Int} {p fuel : Nat} {gone : Option (Nat × Request)} :
      strunbcall setrun size p fuel s = some (s', gone) → Step setrun s (.cancel gone) s'
  | kmemFree {s : Strbcalls} : Step setrun s .kmemFree (kmemFree s)
  | scan {s s' : Strbcalls} {count : Int} {fuel : Nat} : s.scan = none → s.strbcflag = true →
      scanStart count fuel s = some s' → Step setrun s (.scan count) s'
  | call {s : Strbcalls} {nevent sep : Nat} {count : Int} {cell : Strevent} :
      s.scan = some ⟨nevent + 1, count, none⟩ → s.bcHead = some sep → s.cells sep = some cell →
      cell.seSize ≤ count →
      Step setrun s (.call sep cell.request)
        { s with bcHead := cell.seNext, scan := some ⟨nevent, count, some sep⟩ }
  | ret {s : Strbcalls} {nevent sep : Nat} {count : Int} :
      s.scan = some ⟨nevent, count, some sep⟩ →
      Step setrun s .ret (sefree { s with scan := some ⟨nevent, count, none⟩ } sep)
  | retry {s s' : Strbcalls} {nevent sep : Nat} {count : Int} {cell : Strevent} :
      s.scan = some ⟨nevent + 1, count, none⟩ → s.bcHead = some sep → s.cells sep = some cell →
      count < cell.seSize →
      rotate { s with scan := some ⟨nevent, count, none⟩ } sep cell = some s' →
      Step setrun s (.retry sep cell.request) s'
  | done {s : Strbcalls} {nevent : Nat} {count : Int} : s.scan = some ⟨nevent, count, none⟩ →
      s.bcHead = none ∨ nevent = 0 → Step setrun s .done (scanEnd s)

def boot : Strbcalls := ⟨fun _ => none, none, none, false, false, none⟩

end Svr42.Bufcall
