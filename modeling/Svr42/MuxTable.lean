import Svr42.HeapChain
import Svr42.RunExec

/-! The multiplexor link graph of `strsubr.c`: the table `mux_nodes`, one node per major number, each
with a linked list of edges, the cycle search `linkcycle` that keeps its cursor, its way back and
its visited marks in the nodes, and `mux_addedge` and `mux_rmvedge`. An edge that has been freed is
absent from the heap, so following a pointer to it is a fault; so is a node outside the table. -/

namespace Svr42.Mux
open Function

/-- `struct mux_edge`; `nodep` is the index in `mux_nodes` that `me_nodep` points at. -/
structure MuxEdge where
  nodep : Nat
  nextp : Option Nat
  muxid : Int
  deriving DecidableEq, Repr

/-- `struct mux_node`; `visited` is the VISITED bit of `mn_flags`. -/
structure MuxNode where
  imaj : Nat
  originp : Option Nat
  startp : Option Nat
  outp : Option Nat
  visited : Bool
  deriving DecidableEq, Repr

/-- The node table, of which `nodes i` with `i < cdevcnt` are the nodes, and the edges allocated
for it. -/
structure Table where
  cdevcnt : Nat
  nodes : Nat → MuxNode
  edges : Nat → Option MuxEdge

/-- What linking reads of a stream head: whether its vnode is a FIFO, and its major number. -/
structure Stdata where
  isFifo : Bool
  major : Nat
  deriving DecidableEq, Repr

namespace Table

def setNode (m : Table) (n : Nat) (node : MuxNode) : Table :=
  { m with nodes := update m.nodes n node }

def setEdge (m : Table) (p : Nat) (edge : Option MuxEdge) : Table :=
  { m with edges := update m.edges p edge }

@[simp] theorem setNode_cdevcnt (m : Table) (n : Nat) (node : MuxNode) :
    (m.setNode n node).cdevcnt = m.cdevcnt := rfl

@[simp] theorem setNode_edges (m : Table) (n : Nat) (node : MuxNode) :
    (m.setNode n node).edges = m.edges := rfl

@[simp] theorem setNode_self (m : Table) (n : Nat) (node : MuxNode) :
    (m.setNode n node).nodes n = node := by
  simp [setNode]

theorem setNode_of_ne (m : Table) {n k : Nat} (node : MuxNode) (h : k ≠ n) :
    (m.setNode n node).nodes k = m.nodes k := by
  simp [setNode, h]

@[simp] theorem setEdge_cdevcnt (m : Table) (p : Nat) (edge : Option MuxEdge) :
    (m.setEdge p edge).cdevcnt = m.cdevcnt := rfl

@[simp] theorem setEdge_nodes (m : Table) (p : Nat) (edge : Option MuxEdge) :
    (m.setEdge p edge).nodes = m.nodes := rfl

@[simp] theorem setEdge_edges (m : Table) (p : Nat) (edge : Option MuxEdge) :
    (m.setEdge p edge).edges = update m.edges p edge := rfl

end Table

/-- The table `strinit` leaves: no edges, every node idle. -/
def strinit (cdevcnt : Nat) : Table where
  cdevcnt := cdevcnt
  nodes i := ⟨i, none, none, none, false⟩
  edges _ := none

/-- One pass of the `for` loop of `linkcycle` at `np`. -/
inductive Search where
  | next (m : Table) (np : Nat)
  | ret (m : Table) (code : Nat)
  | fault

def goBack (m : Table) (np : Nat) : Search :=
  match (m.nodes np).originp with
  | none => .ret m 0
  | some origin => .next m origin

def linkcycleStep (upmaj : Nat) (m : Table) (np : Nat) : Search :=
  if m.cdevcnt ≤ np then .fault
  else
    let node := m.nodes np
    if node.visited = false then
      if node.imaj = upmaj then .ret m 1
      else
        match node.outp with
        | none => goBack (m.setNode np { node with visited := true }) np
        | some ep => .next (m.setNode np { node with visited := true, startp := some ep }) np
    else
      match node.startp with
      | none => goBack m np
      | some ep =>
          match m.edges ep with
          | none => .fault
          | some edge =>
              let m := m.setNode np { node with startp := edge.nextp }
              if m.cdevcnt ≤ edge.nodep then .fault
              else
                .next (m.setNode edge.nodep { m.nodes edge.nodep with originp := some np })
                  edge.nodep

/-- How a search ends; `running` when the passes allowed are used up. -/
inductive Outcome where
  | running
  | fault
  | returned (m : Table) (code : Nat)

def linkcycleLoop (upmaj : Nat) : Nat → Table → Nat → Outcome
  | 0, _, _ => .running
  | fuel + 1, m, np =>
      match linkcycleStep upmaj m np with
      | .next m np => linkcycleLoop upmaj fuel m np
      | .ret m code => .returned m code
      | .fault => .fault

def muxClear (m : Table) : Table :=
  { m with nodes := fun i => { m.nodes i with visited := false, originp := none } }

def linkcycle (fuel : Nat) (m : Table) (upstp lostp : Stdata) : Outcome :=
  if lostp.isFifo then .returned m 0
  else linkcycleLoop upstp.major fuel (muxClear m) lostp.major

/-- `while (ep->me_nextp) ep = ep->me_nextp`. -/
def lastEdge (edges : Nat → Option MuxEdge) : Nat → Nat → Option (Nat × MuxEdge)
  | 0, _ => none
  | fuel + 1, ep => do
      let edge ← edges ep
      match edge.nextp with
      | none => return (ep, edge)
      | some next => lastEdge edges fuel next

/-- `mux_addedge`; `mem` is what `kmem_alloc` returns. The result is the table and whether the edge
was made (EAGAIN otherwise). -/
def muxAddedge (fuel : Nat) (m : Table) (upstp lostp : Stdata) (muxid : Int) (mem : Option Nat) :
    Option (Table × Bool) :=
  let np := m.nodes upstp.major
  match np.outp with
  | some first => do
      let (ep, edge) ← lastEdge m.edges fuel first
      match mem with
      | none => return (m, false)
      | some new =>
          let m := m.setEdge ep (some { edge with nextp := some new })
          return (m.setEdge new (some ⟨lostp.major, none, muxid⟩), true)
  | none =>
      match mem with
      | none => some (m, false)
      | some new =>
          let m := m.setNode upstp.major { np with outp := some new }
          some (m.setEdge new (some ⟨lostp.major, none, muxid⟩), true)

/-- The walk of `mux_rmvedge` from `ep`, with `pep` behind it. -/
def rmvedgeWalk (m : Table) (upmaj : Nat) (muxid : Int) : Nat → Option Nat → Option Nat → Option Table
  | _, _, none => some m
  | 0, _, some _ => none
  | fuel + 1, pep, some ep => do
      let edge ← m.edges ep
      if edge.muxid = muxid then
        match pep with
        | some prev => do
            let pedge ← m.edges prev
            let m := m.setEdge prev (some { pedge with nextp := edge.nextp })
            return m.setEdge ep none
        | none =>
            let m := m.setNode upmaj { m.nodes upmaj with outp := edge.nextp }
            return m.setEdge ep none
      else rmvedgeWalk m upmaj muxid fuel (some ep) edge.nextp

def muxRmvedge (fuel : Nat) (m : Table) (upmaj : Nat) (muxid : Int) : Option Table :=
  rmvedgeWalk m upmaj muxid fuel none (m.nodes upmaj).outp

/-! ### Linking and unlinking -/

/-- An entry of the linkinfo table: the majors it joins and its `l_index`. -/
structure Link where
  up : Nat
  lo : Nat
  index : Int
  deriving DecidableEq, Repr

structure LinkState where
  mux : Table
  links : List Link

def initial (cdevcnt : Nat) : LinkState := ⟨strinit cdevcnt, []⟩

/-- A stream that can be the upper one: not a FIFO, opened through the device switch. -/
def Stdata.Upper (m : Table) (stp : Stdata) : Prop := stp.isFifo = false ∧ stp.major < m.cdevcnt

/-- A stream that can be the lower one: a FIFO, whose major need not be in the table, or a device. -/
def Stdata.Lower (m : Table) (stp : Stdata) : Prop := stp.isFifo = false → stp.major < m.cdevcnt

inductive Event where
  | link (up lo : Stdata)
  | unlink (link : Link)

/-- I_LINK and I_PLINK, admitted when `linkcycle` returns 0, and I_UNLINK. A new link takes an index
no entry of the table has, as `alloclink` sees to. -/
inductive Step : LinkState → Event → LinkState → Prop
  | refused {s : LinkState} {up lo : Stdata} {fuel code : Nat} {m : Table} :
      up.Upper s.mux → lo.Lower s.mux →
      linkcycle fuel s.mux up lo = .returned m code → code ≠ 0 →
      Step s (.link up lo) { s with mux := m }
  | admitted {s : LinkState} {up lo : Stdata} {fuel fuel' new : Nat} {index : Int} {m m' : Table} :
      up.Upper s.mux → lo.Lower s.mux →
      linkcycle fuel s.mux up lo = .returned m 0 →
      (∀ l ∈ s.links, l.index ≠ index) → m.edges new = none →
      muxAddedge fuel' m up lo index (some new) = some (m', true) →
      Step s (.link up lo) ⟨m', s.links ++ [⟨up.major, lo.major, index⟩]⟩
  | noMemory {s : LinkState} {up lo : Stdata} {fuel fuel' fuel'' : Nat} {index : Int}
      {m m' m'' : Table} :
      up.Upper s.mux → lo.Lower s.mux →
      linkcycle fuel s.mux up lo = .returned m 0 →
      (∀ l ∈ s.links, l.index ≠ index) →
      muxAddedge fuel' m up lo index none = some (m', false) →
      muxRmvedge fuel'' m' up.major index = some m'' →
      Step s (.link up lo) { s with mux := m'' }
  | unlink {s : LinkState} {l : Link} {fuel : Nat} {m : Table} :
      l ∈ s.links → muxRmvedge fuel s.mux l.up l.index = some m →
      Step s (.unlink l) ⟨m, s.links.filter fun k => k.index ≠ l.index⟩

def Linked (links : List Link) (u v : Nat) : Prop := ∃ l ∈ links, l.up = u ∧ l.lo = v

def Path (links : List Link) : Nat → Nat → Prop := Relation.ReflTransGen (Linked links)

def Acyclic (links : List Link) : Prop := ∀ u, ¬ Relation.TransGen (Linked links) u u

/-- `linkcycle` returns, and returns 1 exactly when a path of current links leads from the lower
stream's major to the upper stream's. -/
def Exact (s : LinkState) (up lo : Stdata) : Prop :=
  ∃ fuel m code, linkcycle fuel s.mux up lo = .returned m code ∧ (code = 0 ∨ code = 1) ∧
    (code = 1 ↔ Path s.links lo.major up.major)

end Svr42.Mux
