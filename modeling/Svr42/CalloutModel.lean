import Mathlib.Algebra.Order.Ring.Int

/-! The callout table: `timeout`, `untimeout` and `timein`. -/

namespace Svr42.Callout
open Function

def word : Nat := 0x100000000

def time (t : Int) : Int := t.bmod word

structure Callo where
  cTime : Int
  cId : Nat
  cArg : Nat
  cFunc : Nat
  deriving DecidableEq, Repr

/-- `ncallout` is `calllimit + 1`, the number of valid entries. `depth` counts the calls of `timein`
that have not returned. -/
structure Clock where
  callout : Nat → Callo
  ncallout : Nat
  timeid : Nat
  lbolt : Int
  depth : Nat

/-- `heap_up`: the table with the entries above moved down, and the place for an entry of time `t`. -/
def heapUp (t : Int) (j : Nat) (callout : Nat → Callo) : (Nat → Callo) × Nat :=
  if 0 < j then
    let k := (j - 1) / 2
    if t < (callout k).cTime then heapUp t k (update callout j (callout k))
    else (callout, j)
  else (callout, j)
termination_by j
decreasing_by omega

/-- `heap_down`, in a table of `n` entries. -/
def heapDown (n : Nat) (t : Int) (j : Nat) (callout : Nat → Callo) : (Nat → Callo) × Nat :=
  let left := 1 + 2 * j
  if left < n then
    let k := if left + 1 < n ∧ (callout (left + 1)).cTime < (callout left).cTime then left + 1
      else left
    if t ≤ (callout k).cTime then (callout, j)
    else heapDown n t k (update callout j (callout k))
  else (callout, j)
termination_by n - j
decreasing_by
  simp only [k, left] at *
  split <;> omega

def nextId (timeid : Nat) : Nat :=
  if (timeid + 1) % word = 0 then 1 else (timeid + 1) % word

/-- The table overflows, and the system panics, when it has `vCall` entries already. -/
def timeout (vCall : Nat) (s : Clock) (fn arg : Nat) (tim : Int) : Option (Clock × Nat) :=
  let t := time (s.lbolt + tim)
  if s.ncallout = vCall then none
  else
    let (callout, j) := heapUp t s.ncallout s.callout
    let id := nextId s.timeid
    some ({ s with
      ncallout := s.ncallout + 1
      timeid := id
      callout := update callout j ⟨t, id, arg, fn⟩ }, id)

def search (s : Clock) (id : Nat) : Option Nat :=
  (List.range s.ncallout).find? fun f => (s.callout f).cId = id

/-- The entry at `f` is deleted and the last one put in a place for it. -/
def delete (s : Clock) (f : Nat) : Clock :=
  let n := s.ncallout - 1
  if f = n then { s with ncallout := n }
  else if 0 < n then
    let t := (s.callout n).cTime
    let (callout, j) :=
      if 0 < f ∧ t < (s.callout ((f - 1) / 2)).cTime then heapUp t f s.callout
      else heapDown n t f s.callout
    { s with ncallout := n, callout := update callout j (callout n) }
  else { s with ncallout := n }

def untimeout (s : Clock) (id : Nat) : Clock :=
  match search s id with
  | none => s
  | some f => delete s f

def due (s : Clock) : Prop := (s.callout 0).cTime ≤ s.lbolt ∧ 0 < s.ncallout

/-- The loop of `timein` up to the call of `svcall.c_func`. -/
def takeFirst (s : Clock) : Callo × Clock :=
  let svcall := s.callout 0
  let n := s.ncallout - 1
  if 0 < n then
    let (callout, j) := heapDown n (s.callout n).cTime 0 s.callout
    (svcall, { s with ncallout := n, callout := update callout j (callout n) })
  else (svcall, { s with ncallout := n })

/-- What happens to the table: `call` is the call of a function from `timein`, `gone` the entry an
`untimeout` cancels. -/
inductive Event where
  | tick
  | timeout (fn arg : Nat) (tim : Int) (entry : Callo)
  | untimeout (id : Nat) (gone : Option Callo)
  | timein
  | call (entry : Callo)
  | ret

def Fits (t : Int) : Prop := time t = t

/-- The functions called by `timein`, and interrupts, may do any of these between its rounds. -/
inductive Step (vCall : Nat) : Clock → Event → Clock → Prop
  | tick {s : Clock} : Fits (s.lbolt + 1) → Step vCall s .tick { s with lbolt := s.lbolt + 1 }
  | timeout {s s' : Clock} {fn arg id : Nat} {tim : Int} : Fits (s.lbolt + tim) →
      Callout.timeout vCall s fn arg tim = some (s', id) →
      Step vCall s (.timeout fn arg tim ⟨s.lbolt + tim, id, arg, fn⟩) s'
  | untimeout {s : Clock} {id : Nat} :
      Step vCall s (.untimeout id ((search s id).map s.callout)) (Callout.untimeout s id)
  | timein {s : Clock} : Step vCall s .timein { s with depth := s.depth + 1 }
  | call {s : Clock} : 0 < s.depth → due s → Step vCall s (.call (takeFirst s).1) (takeFirst s).2
  | ret {s : Clock} : 0 < s.depth → ¬ due s → Step vCall s .ret { s with depth := s.depth - 1 }

def boot (callout : Nat → Callo) (lbolt : Int) : Clock := ⟨callout, 0, 0, lbolt, 0⟩

end Svr42.Callout
