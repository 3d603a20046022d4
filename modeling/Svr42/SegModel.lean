import Mathlib.Data.Fintype.Card
import Svr42.RingList
import Svr42.RunExec

/-! The segments of an address space: `as_segat`, `as_addseg`, `seg_alloc`, `seg_free`, `as_map` and
`as_unmap`, with what the segment drivers do to the list. -/

namespace Svr42.Seg
open Function

def word : Nat := 0x100000000

def add (a b : Nat) : Nat := (a + b) % word

def sub (a b : Nat) : Nat := (a + word - b) % word

def pageMask (a : Nat) : Nat := a / 0x1000 * 0x1000

def pageRound (a : Nat) : Nat := pageMask (add a 0xfff)

def uVEND : Nat := 0xc0000000

def validUsrRange (addr len : Nat) : Prop := addr < add addr len ∧ add addr len ≤ uVEND

def validVaRange (base len minlen : Nat) : Prop :=
  ¬ add base len < base ∧ ¬ sub (add base len) base < minlen

instance (addr len : Nat) : Decidable (validUsrRange addr len) :=
  inferInstanceAs (Decidable (_ ∧ _))

instance (base len minlen : Nat) : Decidable (validVaRange base len minlen) :=
  inferInstanceAs (Decidable (_ ∧ _))

/-- An address space, and the segment structures there are: `used` are those that are allocated. -/
structure As (Ptr : Type) where
  aSegs : Option Ptr
  aSeglast : Option Ptr
  sBase : Ptr → Nat
  sSize : Ptr → Nat
  sNext : Ptr → Ptr
  sPrev : Ptr → Ptr
  used : Ptr → Bool

variable {Ptr : Type} [DecidableEq Ptr]

def As.sEnd (s : As Ptr) (seg : Ptr) : Nat := add (s.sBase seg) (s.sSize seg)

def Contains (s : As Ptr) (addr : Nat) (seg : Ptr) : Prop :=
  s.sBase seg ≤ addr ∧ addr < s.sEnd seg

instance (s : As Ptr) (addr : Nat) (seg : Ptr) : Decidable (Contains s addr seg) :=
  inferInstanceAs (Decidable (_ ∧ _))

def segatLoop (s : As Ptr) (addr : Nat) (sseg : Ptr) : Nat → Ptr → Option Ptr
  | 0, _ => none
  | fuel + 1, seg =>
      if Contains s addr seg then some seg
      else if s.sNext seg = sseg then none
      else segatLoop s addr sseg fuel (s.sNext seg)

def withHint (s : As Ptr) : As Ptr :=
  if s.aSeglast = none then { s with aSeglast := s.aSegs } else s

def asSegat [Fintype Ptr] (s : As Ptr) (addr : Nat) : Option Ptr × As Ptr :=
  match (withHint s).aSeglast with
  | none => (none, withHint s)
  | some sseg =>
      match segatLoop (withHint s) addr sseg (Fintype.card Ptr) sseg with
      | none => (none, withHint s)
      | some seg => (some seg, { withHint s with aSeglast := some seg })

/-! ### `as_addseg` -/

/-- Where to add a segment from `base` to `eaddr`: the segment that is to come after it, or none if
it overlaps one. -/
def findPlace (s : As Ptr) (base eaddr : Nat) (head : Ptr) : Nat → Ptr → Option Ptr
  | 0, _ => none
  | fuel + 1, seg =>
      if base < s.sBase seg then
        if s.sBase seg < eaddr then none else some seg
      else if base < s.sEnd seg then none
      else if s.sNext seg = head then some head
      else findPlace s base eaddr head fuel (s.sNext seg)

def linkBefore (s : As Ptr) (newseg seg : Ptr) : As Ptr :=
  { s with
    sNext := update (update s.sNext newseg seg) (s.sPrev seg) newseg
    sPrev := update (update s.sPrev newseg (s.sPrev seg)) seg newseg }

def asAddseg [Fintype Ptr] (s : As Ptr) (newseg : Ptr) : Option (As Ptr) :=
  match s.aSegs with
  | none =>
      some { s with
        sNext := update s.sNext newseg newseg
        sPrev := update s.sPrev newseg newseg
        aSegs := some newseg }
  | some head =>
      match findPlace s (s.sBase newseg) (s.sEnd newseg) head (Fintype.card Ptr) head with
      | none => none
      | some seg =>
          some { linkBefore s newseg seg with
            aSegs := if s.sBase newseg < s.sBase head then some newseg else some head }

/-! ### `seg_alloc` and `seg_free` -/

/-- `seg_attach`, of a segment just allocated. -/
def attached (s : As Ptr) (new : Ptr) (base size : Nat) : As Ptr :=
  { s with
    sBase := update s.sBase new base
    sSize := update s.sSize new size
    used := update s.used new true }

/-- The structure `new` comes from the free list, so it is one that is not in use. Nothing has
changed when the segment cannot be added. -/
def segAlloc [Fintype Ptr] (kernel : Bool) (s : As Ptr) (new : Ptr) (base size : Nat) : Option (As Ptr) :=
  let segbase := pageMask base
  let segsize := sub (pageRound (add base size)) segbase
  if ¬ validVaRange segbase segsize segsize then none
  else if kernel = false ∧ ¬ validUsrRange segbase segsize then none
  else if s.used new = true then none
  else asAddseg (attached s new segbase segsize) new

def alone (s : As Ptr) (seg : Ptr) : Prop := s.aSegs = some seg ∧ s.sNext seg = seg

instance (s : As Ptr) (seg : Ptr) : Decidable (alone s seg) :=
  inferInstanceAs (Decidable (_ ∧ _))

def headWithout (s : As Ptr) (seg : Ptr) : Option Ptr :=
  if alone s seg then none else if s.aSegs = some seg then some (s.sNext seg) else s.aSegs

def segFree (s : As Ptr) (seg : Ptr) : As Ptr :=
  { s with
    aSegs := headWithout s seg
    aSeglast := if s.aSeglast = some seg then headWithout s seg else s.aSeglast
    sNext :=
      if alone s seg then s.sNext
      else update s.sNext (s.sPrev seg) (s.sNext seg)
    sPrev :=
      if alone s seg then s.sPrev
      else update s.sPrev (s.sNext seg) (s.sPrev seg)
    used := update s.used seg false }

/-! ### What the drivers do -/

/-- The driver's unmap routine: the whole segment goes, or its beginning, or its end, or it is split
and `new` becomes its high end. None is a panic. -/
def segUnmap [Fintype Ptr] (kernel : Bool) (s : As Ptr) (new seg : Ptr) (addr len : Nat) :
    Option (As Ptr) :=
  if addr < s.sBase seg ∨ s.sEnd seg < add addr len ∨ len % 0x1000 ≠ 0 ∨ addr % 0x1000 ≠ 0 then none
  else if addr = s.sBase seg ∧ len = s.sSize seg then some (segFree s seg)
  else if addr = s.sBase seg then
    some { s with
      sBase := update s.sBase seg (add (s.sBase seg) len)
      sSize := update s.sSize seg (sub (s.sSize seg) len) }
  else if add addr len = s.sEnd seg then
    some { s with sSize := update s.sSize seg (sub (s.sSize seg) len) }
  else
    segAlloc kernel { s with sSize := update s.sSize seg (sub addr (s.sBase seg)) } new
      (add addr len) (sub (s.sEnd seg) (add addr len))

/-- `segvn_extend_prev` and `segvn_concat`: `seg2` is merged into the segment before it. -/
def mergePrev (s : As Ptr) (seg1 seg2 : Ptr) : As Ptr :=
  { segFree s seg2 with
    sSize := update s.sSize seg1 (add (s.sSize seg1) (s.sSize seg2)) }

/-- `segvn_extend_next`: `seg1` is merged into the segment behind it. -/
def mergeNext (s : As Ptr) (seg1 seg2 : Ptr) : As Ptr :=
  { segFree s seg1 with
    sSize := update s.sSize seg2 (add (s.sSize seg2) (s.sSize seg1))
    sBase := update s.sBase seg2 (sub (s.sBase seg2) (s.sSize seg1)) }

/-- How a creation routine ends: it fails, the segment stays, or it is merged, in one way or another,
with segments beside it. The attributes that decide are not modelled. -/
inductive Create where
  | fails
  | stays
  | extendPrev (concat : Bool)
  | extendNext
  deriving DecidableEq, Repr

/-- The segment that has taken `seg` in is concatenated with the one behind it. -/
def concatNext (s : As Ptr) (pseg : Ptr) : As Ptr :=
  let nseg := s.sNext pseg
  if nseg ≠ pseg ∧ s.sEnd pseg = s.sBase nseg then mergePrev s pseg nseg else s

/-- The creation routine and, when it fails, the `seg_free` of `as_map`. A merge is tried with a
segment that is adjacent, and not in the kernel's address space. -/
def segCreate (kernel : Bool) (s : As Ptr) (seg : Ptr) : Create → As Ptr
  | .fails => segFree s seg
  | .stays => s
  | .extendPrev concat =>
      let pseg := s.sPrev seg
      if pseg ≠ seg ∧ kernel = false ∧ s.sEnd pseg = s.sBase seg then
        if concat then concatNext (mergePrev s pseg seg) pseg else mergePrev s pseg seg
      else s
  | .extendNext =>
      let nseg := s.sNext seg
      if s.sPrev seg ≠ seg ∧ kernel = false ∧ s.sEnd seg = s.sBase nseg then mergeNext s seg nseg
      else s

/-! ### `as_unmap` and `as_map` -/

def unmapFrom (s : As Ptr) (seg : Ptr) (raddr : Nat) : Nat :=
  if raddr < s.sBase seg then s.sBase seg else raddr

def unmapSize (s : As Ptr) (seg : Ptr) (raddr eaddr : Nat) : Nat :=
  if s.sEnd seg < eaddr then sub (s.sEnd seg) raddr else sub eaddr raddr

/-- The loop of `as_unmap`; `refuses` are the segments whose driver does not unmap. The result tells
whether it has got through. -/
def unmapLoop [Fintype Ptr] (kernel : Bool) (new : Ptr) (refuses : Ptr → Bool) (eaddr : Nat) :
    Nat → As Ptr → Ptr → Nat → Option (Bool × As Ptr)
  | 0, _, _, _ => none
  | fuel + 1, s, seg, raddr =>
      let segNext := s.sNext seg
      let obase := s.sBase seg
      if s.sEnd seg ≤ raddr then
        if obase < s.sBase segNext then unmapLoop kernel new refuses eaddr fuel s segNext raddr
        else some (true, s)
      else if eaddr ≤ s.sBase seg then some (true, s)
      else
        let ssize := unmapSize s seg (unmapFrom s seg raddr) eaddr
        if refuses seg = true then some (false, s)
        else
          (segUnmap kernel s new seg (unmapFrom s seg raddr) ssize).bind fun t =>
            if t.aSegs ≠ none ∧ obase < t.sBase segNext then
              unmapLoop kernel new refuses eaddr fuel t segNext (add (unmapFrom s seg raddr) ssize)
            else some (true, t)

def asUnmap [Fintype Ptr] (kernel : Bool) (s : As Ptr) (new : Ptr) (refuses : Ptr → Bool)
    (addr size : Nat) : Option (Bool × As Ptr) :=
  match s.aSegs with
  | none => some (true, s)
  | some head =>
      unmapLoop kernel new refuses (pageRound (add addr size)) (Fintype.card Ptr + 1) s head
        (pageMask addr)

/-- `as_map` up to the creation of the segment; the hint has been set before the driver is called. -/
def asMap [Fintype Ptr] (kernel : Bool) (s : As Ptr) (new : Ptr) (addr size : Nat) (create : Create) :
    Option (As Ptr) :=
  (segAlloc kernel s new addr size).map fun t =>
    segCreate kernel { t with aSeglast := some new } new create

inductive Event (Ptr : Type) where
  | map (new : Ptr) (addr size : Nat) (create : Create)
  | unmap (addr size : Nat) (done : Bool)
  | segat (addr : Nat) (found : Option Ptr)
  | hint (seg : Option Ptr)

def OnList [Fintype Ptr] (s : As Ptr) (seg : Ptr) : Prop :=
  ∃ n, ∃ head, s.aSegs = some head ∧ s.sNext^[n] head = seg

/-- Calls in any order. The `as_unmap` that `as_map` makes when it cannot lock the pages is a step of
its own. Other routines set the hint too, to a segment of the list. -/
inductive Step [Fintype Ptr] (kernel : Bool) : As Ptr → Event Ptr → As Ptr → Prop
  | map {s s' : As Ptr} {new : Ptr} {addr size : Nat} {create : Create} : addr < word →
      asMap kernel s new addr size create = some s' →
      Step kernel s (.map new addr size create) s'
  | unmap {s s' : As Ptr} {new : Ptr} {refuses : Ptr → Bool} {addr size : Nat} {done : Bool} :
      addr < word → s.used new = false → asUnmap kernel s new refuses addr size = some (done, s') →
      Step kernel s (.unmap addr size done) s'
  | segat {s : As Ptr} {addr : Nat} :
      Step kernel s (.segat addr (asSegat s addr).1) (asSegat s addr).2
  | hint {s : As Ptr} {seg : Option Ptr} : (∀ p, seg = some p → OnList s p) →
      Step kernel s (.hint seg) { s with aSeglast := seg }

end Svr42.Seg
