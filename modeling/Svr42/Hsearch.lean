import Mathlib.Data.Int.Order.Basic

/-! `hcreate` and `hsearch`, with open addressing and multiplicative hashing. A string is the list of its bytes
before the terminator, and a pointer into the table is the number of the slot. -/

namespace Svr42.Hsearch

abbrev Str := List UInt8

variable {D : Type}

structure Entry (D : Type) where
  key : Str
  data : D

inductive Action where
  | FIND
  | ENTER
deriving DecidableEq

/-- An empty slot has a null key. -/
structure State (D : Type) where
  table : List (Option (Entry D))
  count : Nat
  length : Nat
  m : Nat

namespace State

def slot (s : State D) (i : Nat) : Option (Entry D) := s.table.getD i none

end State

def grow (unsize length m : Nat) : Nat × Nat :=
  if unsize = 0 then (length, m) else grow (unsize / 2) (length * 2) (m + 1)
termination_by unsize

/-- `calloc` refuses a number of bytes that does not fit, or returns what `malloc` finds. -/
def calloc (malloc : Nat → Bool) (num size : Nat) : Bool :=
  let total := num * size % 0x100000000
  if total / num ≠ size then false else malloc total

def sizeofTABELEM : Nat := 8

/-- A table no smaller than `size`, in a module that is in its initial state. -/
def hcreate (malloc : Nat → Bool) (size : Int32) : Option (State D) :=
  if size.toInt ≤ 0 then none
  else
    let r := grow size.toInt.toNat 1 0
    if calloc malloc r.1 sizeofTABELEM then
      some { table := List.replicate r.1 none, count := 0, length := r.1, m := r.2 }
    else none

def FACTOR : UInt32 := 0xEFC5589B

def crunch (key : Str) : UInt32 :=
  key.foldl (fun sum c => sum + c.toInt8.toInt32.toUInt32) 0 + UInt32.ofNat key.length

def hashm (m : Nat) (key : Str) : Nat := ((crunch key * FACTOR) >>> UInt32.ofNat (32 - m)).toNat

def hash2m (m : Nat) (key : Str) : Nat :=
  (((crunch key * FACTOR) <<< UInt32.ofNat m) >>> UInt32.ofNat (32 - m) ||| 1).toNat

/-- D2 to D5: the slot that is empty or has the key, for as many probes as there is fuel. -/
def probe (s : State D) (key : Str) (c : Nat) : Nat → Nat → Option Nat
  | 0, _ => none
  | fuel + 1, i =>
      if (s.slot i).all (fun e => decide (e.key = key)) then some i
      else probe s key c fuel ((i + c) % s.length)

def enter (s : State D) (item : Entry D) (i : Nat) : State D :=
  { s with table := s.table.set i (some item), count := s.count + 1 }

/-- No search needs more probes than there are slots. -/
def hsearch (item : Entry D) (action : Action) (s : State D) : Option (Option Nat × State D) :=
  (probe s item.key (hash2m s.m item.key) s.length (hashm s.m item.key)).map fun i =>
    if (s.slot i).isSome then (some i, s)
    else if action = .FIND then (none, s)
    else if s.count = s.length - 1 then (none, s)
    else (some i, enter s item i)

/-- Calls in turn, each with the entry that it returns a pointer to. -/
def calls : List (Entry D × Action) → State D → Option (List (Option (Entry D)) × State D)
  | [], s => some ([], s)
  | (item, action) :: rest, s =>
      (hsearch item action s).bind fun r =>
        (calls rest r.2).map fun rs => (r.1.bind r.2.slot :: rs.1, rs.2)

/-- A map with the number of its keys. -/
structure Map (D : Type) where
  entry : Str → Option D
  size : Nat

def Map.empty : Map D := ⟨fun _ => none, 0⟩

/-- The first entry for a key stays; a new one is refused when there are as many keys as the table has room for. -/
def Map.call (room : Nat) (item : Entry D) (action : Action) (f : Map D) : Option (Entry D) × Map D :=
  (f.entry item.key).elim
    (if action = .FIND ∨ f.size = room then (none, f)
      else (some item, ⟨fun k => if k = item.key then some item.data else f.entry k, f.size + 1⟩))
    (fun d => (some ⟨item.key, d⟩, f))

def Map.calls (room : Nat) : List (Entry D × Action) → Map D → List (Option (Entry D)) × Map D
  | [], f => ([], f)
  | (item, action) :: rest, f =>
      let r := f.call room item action
      ((r.1 :: (Map.calls room rest r.2).1), (Map.calls room rest r.2).2)

end Svr42.Hsearch
