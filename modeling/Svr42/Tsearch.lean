import Mathlib.Data.List.Nodup
import Mathlib.Data.Set.Insert

/-! `tsearch` and `tdelete`. The two links of every node and the root pointer are the places that a `NODE **`
can point to. -/

namespace Svr42.Tsearch

variable {K : Type}

/-- Where a pointer to a node is kept. -/
inductive Link where
  | root
  | llink (a : Nat)
  | rlink (a : Nat)
deriving DecidableEq

def Link.owner : Link → Option Nat
  | .root => none
  | .llink a => some a
  | .rlink a => some a

/-- The links, the keys of the nodes, and the nodes that are allocated. `NULL` is 0. -/
structure State (K : Type) where
  link : Link → Nat
  key : Nat → K
  live : List Nat

namespace State

def store (s : State K) (rootp : Link) (q : Nat) : State K :=
  { s with link := fun x => if x = rootp then q else s.link x }

def free (s : State K) (a : Nat) : State K := { s with live := s.live.erase a }

def addNode (s : State K) (rootp : Link) (q : Nat) (key : K) : State K :=
  { ((s.store rootp q).store (.rlink q) 0).store (.llink q) 0 with
    key := fun x => if x = q then key else s.key x
    live := q :: s.live }

def bound (s : State K) : Nat := s.live.length + 1

end State

variable (compar : K → K → Int) (key : K)

/-- The loop of `tsearch`: the link to the node with the key, or the empty link where it belongs. -/
def locate (s : State K) : Nat → Link → Option Link
  | 0, _ => none
  | fuel + 1, rootp =>
      if s.link rootp = 0 then some rootp
      else
        let r := compar key (s.key (s.link rootp))
        if r = 0 then some rootp
        else locate s fuel (if r < 0 then .llink (s.link rootp) else .rlink (s.link rootp))

/-- `q` is what `malloc` returns. -/
def tsearch (q : Nat) (s : State K) : Option (Nat × State K) :=
  (locate compar key s s.bound .root).map fun rootp =>
    if s.link rootp ≠ 0 then (s.link rootp, s)
    else if q ≠ 0 then (q, s.addNode rootp q key)
    else (q, s)

/-- The loop of `tdelete`: the parent and the link to the node, or 0 for a key that is not found. -/
def descend (s : State K) : Nat → Nat → Link → Option (Nat × Link)
  | 0, _, _ => none
  | fuel + 1, p, rootp =>
      let ans := compar key (s.key (s.link rootp))
      if ans ≠ 0 then
        let next := if ans < 0 then Link.llink (s.link rootp) else .rlink (s.link rootp)
        if s.link next = 0 then some (0, next) else descend s fuel (s.link rootp) next
      else some (p, rootp)

def findNull (s : State K) : Nat → Nat → Option Nat
  | 0, _ => none
  | fuel + 1, r =>
      if s.link (.llink (s.link (.llink r))) ≠ 0 then findNull s fuel (s.link (.llink r)) else some r

/-- D3: the node below `r` loses its place there and takes the links of the deleted node. -/
def splice (s : State K) (rootp : Link) (r : Nat) : Nat × State K :=
  let q := s.link (.llink r)
  let s₁ := s.store (.llink r) (s.link (.rlink q))
  let s₂ := s₁.store (.llink q) (s₁.link (.llink (s₁.link rootp)))
  (q, s₂.store (.rlink q) (s₂.link (.rlink (s₂.link rootp))))

/-- The replacement for the node, with its links set. -/
def replace (s : State K) (rootp : Link) : Option (Nat × State K) :=
  let r := s.link (.rlink (s.link rootp))
  let q := s.link (.llink (s.link rootp))
  if q = 0 then some (r, s)
  else if r ≠ 0 then
    if s.link (.llink r) = 0 then some (r, s.store (.llink r) q)
    else (findNull s s.bound r).map (splice s rootp)
  else some (q, s)

def tdelete (s : State K) : Option (Nat × State K) :=
  if s.link .root = 0 then some (0, s)
  else
    (descend compar key s s.bound (s.link .root) .root).bind fun r =>
      if r.1 = 0 then some (0, s)
      else
        (replace s r.2).map fun q => (r.1, (q.2.free (q.2.link r.2)).store r.2 q.1)

/-- What `action` is told about a node. -/
inductive Visit where
  | preorder
  | postorder
  | endorder
  | leaf
deriving DecidableEq

/-- `__twalk`: the calls of `action`, which leaves the tree as it is. -/
def walk (s : State K) : Nat → Nat → Nat → Option (List (Nat × Visit × Nat))
  | 0, _, _ => none
  | fuel + 1, root, level =>
      if s.link (.llink root) = 0 ∧ s.link (.rlink root) = 0 then some [(root, .leaf, level)]
      else
        (if s.link (.llink root) ≠ 0 then walk s fuel (s.link (.llink root)) (level + 1)
          else some []).bind fun left =>
            (if s.link (.rlink root) ≠ 0 then walk s fuel (s.link (.rlink root)) (level + 1)
              else some []).map fun right =>
                (root, .preorder, level) :: left ++ (root, .postorder, level) :: right ++
                  [(root, .endorder, level)]

def twalk (s : State K) : Option (List (Nat × Visit × Nat)) :=
  if s.link .root ≠ 0 then walk s s.bound (s.link .root) 0 else some []

/-! ### Trees in the memory -/

/-- A tree with the address and the key of each node. -/
inductive Tree (K : Type) where
  | nil
  | node (l : Tree K) (a : Nat) (k : K) (r : Tree K)

namespace Tree

def entries : Tree K → List (Nat × K)
  | nil => []
  | node l a k r => l.entries ++ (a, k) :: r.entries

def addrs (t : Tree K) : List Nat := t.entries.map Prod.fst
def keys (t : Tree K) : List K := t.entries.map Prod.snd

def Rep (s : State K) : Nat → Tree K → Prop
  | p, nil => p = 0
  | p, node l a k r =>
      p = a ∧ a ≠ 0 ∧ s.key a = k ∧ Rep s (s.link (.llink a)) l ∧ Rep s (s.link (.rlink a)) r

end Tree

/-- A comparison function that is a total order: keys that compare equal count as the same key. -/
structure TotalOrder (compar : K → K → Int) : Prop where
  refl : ∀ x, compar x x = 0
  anti : ∀ x y, compar x y < 0 ↔ 0 < compar y x
  trans : ∀ x y z, compar x y ≤ 0 → compar y z ≤ 0 → compar x z ≤ 0

/-- The memory holds a binary search tree with the keys of a set, each once. -/
structure Holds (s : State K) (t : Tree K) (keys : Set K) : Prop where
  rep : t.Rep s (s.link .root)
  nodup : t.addrs.Nodup
  live : ∀ a ∈ t.addrs, a ∈ s.live
  sorted : t.keys.Pairwise (compar · · < 0)
  keys : ∀ k, k ∈ t.keys ↔ k ∈ keys

/-- The states after calls from the empty tree, each with the keys inserted and not deleted since.
`malloc` returns `NULL` or a block that is not allocated. -/
inductive Reach : State K → Set K → Prop
  | init {s} : s.link .root = 0 → s.live = [] → Reach s ∅
  | found {s s' keys key q p x} : Reach s keys → q = 0 ∨ q ∉ s.live → x ∈ keys → compar key x = 0 →
      tsearch compar key q s = some (p, s') → Reach s' keys
  | inserted {s s' keys key q p} : Reach s keys → q ≠ 0 → q ∉ s.live → (∀ x ∈ keys, compar key x ≠ 0) →
      tsearch compar key q s = some (p, s') → Reach s' (insert key keys)
  | noSpace {s s' keys key p} : Reach s keys → (∀ x ∈ keys, compar key x ≠ 0) →
      tsearch compar key 0 s = some (p, s') → Reach s' keys
  | deleted {s s' keys key p} : Reach s keys → tdelete compar key s = some (p, s') →
      Reach s' {x | x ∈ keys ∧ compar key x ≠ 0}

end Svr42.Tsearch
