import Mathlib.Algebra.Order.BigOperators.Group.Finset
import Svr42.MuxTable

/-! The search of `linkcycle` on a table whose edge lists are chains. Its stack is kept in
`mn_originp`; what is left to follow of each visited node is the chain from `mn_startp`. The search
ends because every pass takes from a potential, and what it returns is decided by the visited set
being closed under edges. A node without edges keeps the cursor an earlier search left in it, which
is read only when the search arrives there a second time. -/

namespace Svr42.Mux
open Function List

def MuxEdge.payload (edge : MuxEdge) : Nat × Int := (edge.nodep, edge.muxid)

/-- An edge cell in a list: its address, the node it leads to, its id. -/
abbrev EdgeCell := Nat × (Nat × Int)

def Edges (m : Table) : Option Nat → List EdgeCell → Prop :=
  Chain m.edges MuxEdge.payload MuxEdge.nextp

def Adj (out : Nat → List EdgeCell) (u v : Nat) : Prop := ∃ x ∈ out u, x.2.1 = v

variable {m m' : Table} {out rem : Nat → List EdgeCell} {lomaj upmaj np : Nat} {stack : List Nat}

/-- The table as the search may change it: marks, cursors and ways back only. -/
structure SameLists (m m' : Table) : Prop where
  cdevcnt : m'.cdevcnt = m.cdevcnt
  edges : m'.edges = m.edges
  outp : ∀ n, (m'.nodes n).outp = (m.nodes n).outp
  imaj : ∀ n, (m'.nodes n).imaj = (m.nodes n).imaj

theorem SameLists.refl (m : Table) : SameLists m m := ⟨rfl, rfl, fun _ => rfl, fun _ => rfl⟩

variable {m₁ m₂ : Table}

theorem SameLists.trans {m₃ : Table} (h : SameLists m₁ m₂) (h' : SameLists m₂ m₃) : SameLists m₁ m₃ :=
  ⟨h'.cdevcnt.trans h.cdevcnt, h'.edges.trans h.edges, fun n => (h'.outp n).trans (h.outp n),
    fun n => (h'.imaj n).trans (h.imaj n)⟩

theorem SameLists.setNode (h : SameLists m₁ m₂) (n : Nat) (node : MuxNode)
    (houtp : node.outp = (m₂.nodes n).outp) (himaj : node.imaj = (m₂.nodes n).imaj) :
    SameLists m₁ (m₂.setNode n node) := by
  refine ⟨h.cdevcnt, h.edges, fun k => ?_, fun k => ?_⟩
  · by_cases hk : k = n
    · subst hk
      rw [Table.setNode_self, houtp, h.outp]
    · rw [Table.setNode_of_ne _ _ hk, h.outp]
  · by_cases hk : k = n
    · subst hk
      rw [Table.setNode_self, himaj, h.imaj]
    · rw [Table.setNode_of_ne _ _ hk, h.imaj]

theorem muxClear_sameLists (m : Table) : SameLists m (muxClear m) := by
  exact ⟨rfl, rfl, fun _ => rfl, fun _ => rfl⟩

/-- What a search from `lomaj` needs of the table: its lists are chains, everything it can reach is
in the table and without cycles, and a left-over cursor in a node without edges is never read, since
two different edges do not lead there. -/
structure Searchable (m : Table) (out : Nat → List EdgeCell) (lomaj : Nat) : Prop where
  chain : ∀ n, n < m.cdevcnt → Edges m (m.nodes n).outp (out n)
  nodup : ∀ n, n < m.cdevcnt → (out n).Nodup
  imaj : ∀ n, n < m.cdevcnt → (m.nodes n).imaj = n
  inside : ∀ n, Relation.ReflTransGen (Adj out) lomaj n → n < m.cdevcnt
  acyclic : ∀ n, ¬ Relation.TransGen (Adj out) n n
  cursor : ∀ n, Relation.ReflTransGen (Adj out) lomaj n → out n = [] →
    (m.nodes n).startp ≠ none → ∀ u u' x x', Relation.ReflTransGen (Adj out) lomaj u →
    Relation.ReflTransGen (Adj out) lomaj u' → x ∈ out u → x' ∈ out u' → x.2.1 = n →
    x'.2.1 = n → u = u' ∧ x = x'

/-- The state of a search at the head of `stack`, with `rem` left to follow of each visited node. -/
structure SearchInv (m₀ : Table) (out : Nat → List EdgeCell) (lomaj upmaj : Nat) (m : Table)
    (np : Nat) (stack : List Nat) (rem : Nat → List EdgeCell) : Prop where
  same : SameLists m₀ m
  path : (np :: stack).IsChain fun t u => Adj out u t ∧ (m.nodes t).originp = some u
  bottom : (np :: stack).getLast? = some lomaj
  bottomOrigin : (m.nodes lomaj).originp = none
  below : ∀ n ∈ stack, (m.nodes n).visited = true
  reached : ∀ n, (m.nodes n).visited = true → Relation.ReflTransGen (Adj out) lomaj n
  notTarget : ∀ n, (m.nodes n).visited = true → n ≠ upmaj
  suffix : ∀ n, (m.nodes n).visited = true → rem n <:+ out n
  chain : ∀ n, (m.nodes n).visited = true → out n ≠ [] → Edges m (m.nodes n).startp (rem n)
  done : ∀ n, (m.nodes n).visited = true → n ∉ np :: stack → rem n = []
  seen : ∀ n, (m.nodes n).visited = true → ∀ x ∈ out n, x ∉ rem n →
    (m.nodes x.2.1).visited = true ∨ x.2.1 = np
  arrived : ∀ n, (m.nodes n).visited = true ∨ n = np → n ≠ lomaj →
    ∃ u x, (m.nodes u).visited = true ∧ x ∈ out u ∧ x ∉ rem u ∧ x.2.1 = n
  leaf : ∀ n, out n = [] → (m.nodes n).startp = (m₀.nodes n).startp

def CursorRead (out : Nat → List EdgeCell) (m : Table) (np : Nat) : Prop :=
  (m.nodes np).visited = true → out np = [] → (m.nodes np).startp = none

/-- What is still to be done: two for each edge to follow and each node to visit, one for each node
to return from. -/
def potential (m : Table) (out rem : Nat → List EdgeCell) (stack : List Nat) : Nat :=
  (∑ n ∈ Finset.range m.cdevcnt,
    if (m.nodes n).visited = true then 2 * (rem n).length else 2 * (out n).length + 2) +
    stack.length

theorem sum_range_change {f g : Nat → Nat} {k n : Nat} (hk : k < n) (hsame : ∀ i, i ≠ k → g i = f i) :
    ∑ i ∈ Finset.range n, g i + f k = ∑ i ∈ Finset.range n, f i + g k := by
  have hmem : k ∈ Finset.range n := Finset.mem_range.mpr hk
  have hrest : ∑ i ∈ (Finset.range n).erase k, g i = ∑ i ∈ (Finset.range n).erase k, f i :=
    Finset.sum_congr rfl fun i hi => hsame i (Finset.ne_of_mem_erase hi)
  rw [← Finset.add_sum_erase _ f hmem, ← Finset.add_sum_erase _ g hmem, hrest]
  omega

variable {m₀ : Table}

variable {r : List EdgeCell}

namespace SearchInv

section

variable (h : SearchInv m₀ out lomaj upmaj m np stack rem)
include h

theorem top_mem_or : lomaj ∈ np :: stack :=
  mem_of_getLast? h.bottom

theorem stack_reaches : ∀ n ∈ np :: stack, Relation.ReflTransGen (Adj out) n np := by
  have hpath := h.path
  clear h
  induction stack generalizing np with
  | nil =>
    intro n hn
    rw [mem_singleton.mp hn]
  | cons u st ih =>
    rw [isChain_cons_cons] at hpath
    intro n hn
    rcases mem_cons.mp hn with rfl | hn
    · exact Relation.ReflTransGen.refl
    · exact (ih hpath.2 n hn).tail hpath.1.1

theorem top_reached : Relation.ReflTransGen (Adj out) lomaj np :=
  h.stack_reaches lomaj h.top_mem_or

/-- The first visit of the top marks it and points its cursor at its list, if it has one. -/
theorem mark (hnew : (m.nodes np).visited = false) (htarget : np ≠ upmaj) (cursor : Option Nat)
    (hleaf : out np = [] → cursor = (m.nodes np).startp)
    (hcursor : out np ≠ [] → Edges m cursor (out np)) : SearchInv m₀ out lomaj upmaj
      (m.setNode np { m.nodes np with visited := true, startp := cursor }) np stack
      (update rem np (out np)) := by
  have hvisited : ∀ n, ((m.setNode np { m.nodes np with visited := true, startp := cursor }).nodes
      n).visited = true ↔ n = np ∨ (m.nodes n).visited = true := by
    intro n
    by_cases hn : n = np
    · subst hn
      simp
    · simp [Table.setNode_of_ne _ _ hn, hn]
  have horigin : ∀ n, ((m.setNode np { m.nodes np with visited := true, startp := cursor }).nodes
      n).originp = (m.nodes n).originp := by
    intro n
    by_cases hn : n = np
    · subst hn
      simp
    · rw [Table.setNode_of_ne _ _ hn]
  have hold : ∀ n, n ≠ np → update rem np (out np) n = rem n := fun n hn => update_of_ne hn _ _
  refine ⟨h.same.setNode _ _ rfl rfl, ?_, h.bottom, ?_, ?_, ?_, ?_, ?_, ?_, ?_, ?_, ?_, ?_⟩
  · exact h.path.imp fun t u htu => ⟨htu.1, by rw [horigin]; exact htu.2⟩
  · rw [horigin]
    exact h.bottomOrigin
  · intro n hn
    exact (hvisited n).mpr (.inr (h.below n hn))
  · intro n hn
    rcases (hvisited n).mp hn with rfl | hn
    · exact h.top_reached
    · exact h.reached n hn
  · intro n hn
    rcases (hvisited n).mp hn with rfl | hn
    · exact htarget
    · exact h.notTarget n hn
  · intro n hn
    by_cases hnp : n = np
    · subst hnp
      simp
    · rw [hold n hnp]
      exact h.suffix n (((hvisited n).mp hn).resolve_left hnp)
  · intro n hn hne
    by_cases hnp : n = np
    · subst hnp
      simpa [Edges] using hcursor hne
    · rw [hold n hnp, Table.setNode_of_ne _ _ hnp]
      exact h.chain n (((hvisited n).mp hn).resolve_left hnp) hne
  · intro n hn hnot
    have hnp : n ≠ np := fun heq => hnot (heq ▸ (.head _))
    rw [hold n hnp]
    exact h.done n (((hvisited n).mp hn).resolve_left hnp) hnot
  · intro n hn x hx hrem
    by_cases hnp : n = np
    · subst hnp
      simp [hx] at hrem
    rw [hold n hnp] at hrem
    rcases h.seen n (((hvisited n).mp hn).resolve_left hnp) x hx hrem with hseen | hseen
    · exact .inl ((hvisited _).mpr (.inr hseen))
    · exact .inr hseen
  · intro n hn hlo
    have hn' : (m.nodes n).visited = true ∨ n = np := by
      rcases hn with hn | hn
      · exact ((hvisited n).mp hn).symm
      · exact .inr hn
    obtain ⟨u, x, hu, hx, hrem, hxn⟩ := h.arrived n hn' hlo
    have hunp : u ≠ np := by
      rintro rfl
      simp [hnew] at hu
    exact ⟨u, x, (hvisited u).mpr (.inr hu), hx, by rwa [hold u hunp], hxn⟩
  · intro n hn
    by_cases hnp : n = np
    · subst hnp
      simp only [Table.setNode_self]
      rw [hleaf hn]
      exact h.leaf n hn
    · rw [Table.setNode_of_ne _ _ hnp]
      exact h.leaf n hn

end

/-- Returning from a node all of whose edges have been followed. -/
theorem pop {u : Nat} {st : List Nat} (h : SearchInv m₀ out lomaj upmaj m np (u :: st) rem)
    (hvisited : (m.nodes np).visited = true) (hrem : rem np = []) :
    SearchInv m₀ out lomaj upmaj m u st rem ∧ (m.nodes np).originp = some u ∧ CursorRead out m u := by
  have hpath := h.path
  rw [isChain_cons_cons] at hpath
  obtain ⟨⟨hadj, horigin⟩, hpath⟩ := hpath
  refine ⟨⟨h.same, hpath, ?_, h.bottomOrigin, ?_, h.reached, h.notTarget, h.suffix, h.chain, ?_, ?_,
    ?_, h.leaf⟩, horigin, ?_⟩
  · simpa using h.bottom
  · exact fun n hn => h.below n (.tail _ hn)
  · intro n hn hnot
    by_cases hnp : n = np
    · rw [hnp]
      exact hrem
    · exact h.done n hn fun hmem => hnot ((mem_cons.mp hmem).resolve_left hnp)
  · intro n hn x hx hx'
    rcases h.seen n hn x hx hx' with hseen | hseen
    · exact .inl hseen
    · exact .inl (by rw [hseen]; exact hvisited)
  · intro n hn hlo
    refine h.arrived n ?_ hlo
    rcases hn with hn | rfl
    · exact .inl hn
    · exact .inl (h.below _ (.head _))
  · intro _ hnil
    obtain ⟨x, hx, _⟩ := hadj
    simp [hnil] at hx

section

variable (h : SearchInv m₀ out lomaj upmaj m np stack rem) (hs : Searchable m₀ out lomaj)
include h hs

theorem fresh_target {v : Nat} (hadj : Adj out np v) : v ∉ np :: stack := by
  intro hv
  exact hs.acyclic np (Relation.TransGen.trans_left
    (Relation.TransGen.single hadj) (h.stack_reaches v hv))

/-- Following the next edge of a visited node. -/
theorem push
    (hvisited : (m.nodes np).visited = true) {x : EdgeCell} (hrem : rem np = x :: r) {next : Option Nat}
    (hnext : Edges m next r) (hm₁ : m₁ = m.setNode np { m.nodes np with startp := next })
    (hm₂ : m₂ = m₁.setNode x.2.1 { m₁.nodes x.2.1 with originp := some np }) :
    SearchInv m₀ out lomaj upmaj m₂ x.2.1 (np :: stack) (update rem np r) ∧
      CursorRead out m₂ x.2.1 ∧ ∀ n, (m₂.nodes n).visited = (m.nodes n).visited := by
  have hx : x ∈ out np := (h.suffix np hvisited).subset (by simp [hrem])
  have hadj : Adj out np x.2.1 := ⟨x, hx, rfl⟩
  have hfresh := h.fresh_target hs hadj
  have hvnp : x.2.1 ≠ np := fun heq => hfresh (heq ▸ (.head _))
  have hlo : x.2.1 ≠ lomaj := fun heq => hfresh (heq ▸ h.top_mem_or)
  have hout : out np ≠ [] := ne_nil_of_mem hx
  have hnodup : x ∉ r := by
    have hsub := (h.suffix np hvisited).sublist.nodup (hs.nodup np (hs.inside np h.top_reached))
    rw [hrem, nodup_cons] at hsub
    exact hsub.1
  have hmark : ∀ n, (m₂.nodes n).visited = (m.nodes n).visited := by
    intro n
    by_cases hn : n = x.2.1
    · subst hn
      simp [hm₂, hm₁, Table.setNode_of_ne _ _ hvnp]
    rw [hm₂, Table.setNode_of_ne _ _ hn, hm₁]
    by_cases hn' : n = np
    · subst hn'
      simp
    · rw [Table.setNode_of_ne _ _ hn']
  have horigin : ∀ n, n ≠ x.2.1 → (m₂.nodes n).originp = (m.nodes n).originp := by
    intro n hn
    rw [hm₂, Table.setNode_of_ne _ _ hn, hm₁]
    by_cases hn' : n = np
    · subst hn'
      simp
    · rw [Table.setNode_of_ne _ _ hn']
  have hstart : ∀ n, n ≠ np → (m₂.nodes n).startp = (m.nodes n).startp := by
    intro n hn
    by_cases hn' : n = x.2.1
    · subst hn'
      simp [hm₂, hm₁, Table.setNode_of_ne _ _ hn]
    · rw [hm₂, Table.setNode_of_ne _ _ hn', hm₁, Table.setNode_of_ne _ _ hn]
  have hstartNp : (m₂.nodes np).startp = next := by
    rw [hm₂, Table.setNode_of_ne _ _ hvnp.symm, hm₁]
    simp
  have hedges : m₂.edges = m.edges := by simp [hm₂, hm₁]
  have hold : ∀ n, n ≠ np → update rem np r n = rem n := fun n hn => update_of_ne hn _ _
  have hshrink : ∀ n y, y ∉ rem n → y ∉ update rem np r n := by
    intro n y hy
    by_cases hn : n = np
    · subst hn
      simp only [update_self]
      exact fun hmem => hy (hrem ▸ .tail _ hmem)
    · rwa [hold n hn]
  refine ⟨⟨?_, ?_, ?_, ?_, ?_, ?_, ?_, ?_, ?_, ?_, ?_, ?_, ?_⟩, ?_, hmark⟩
  · rw [hm₂, hm₁]
    apply SameLists.setNode
    · apply h.same.setNode <;> rfl
    · rfl
    · rfl
  · rw [isChain_cons_cons]
    refine ⟨⟨hadj, by simp [hm₂]⟩, ?_⟩
    refine h.path.imp_of_mem_imp ?_
    intro t u ht _ htu
    refine ⟨htu.1, ?_⟩
    rw [horigin t fun heq => hfresh (heq ▸ ht)]
    exact htu.2
  · simpa using h.bottom
  · rw [horigin lomaj hlo.symm]
    exact h.bottomOrigin
  · intro n hn
    rw [hmark]
    rcases mem_cons.mp hn with rfl | hn
    · exact hvisited
    · exact h.below n hn
  · intro n hn
    exact h.reached n (hmark n ▸ hn)
  · intro n hn
    exact h.notTarget n (hmark n ▸ hn)
  · intro n hn
    by_cases hnp : n = np
    · subst hnp
      simp only [update_self]
      exact (suffix_cons x r).trans (hrem ▸ h.suffix n hvisited)
    · rw [hold n hnp]
      exact h.suffix n (hmark n ▸ hn)
  · intro n hn hne
    by_cases hnp : n = np
    · subst hnp
      rw [hstartNp]
      simpa [Edges, hedges] using hnext
    · rw [hold n hnp, hstart n hnp]
      simpa [Edges, hedges] using h.chain n (hmark n ▸ hn) hne
  · intro n hn hnot
    have hnot' : n ∉ np :: stack := fun hmem => hnot (.tail _ hmem)
    rw [hold n fun heq => hnot' (heq ▸ (.head _))]
    exact h.done n (hmark n ▸ hn) hnot'
  · intro n hn y hy hyrem
    by_cases hyx : n = np ∧ y = x
    · rw [hyx.2]
      exact .inr rfl
    have hyold : y ∉ rem n := by
      by_cases hnp : n = np
      · subst hnp
        rw [hrem, mem_cons, not_or]
        exact ⟨fun heq => hyx ⟨rfl, heq⟩, by simpa using hyrem⟩
      · rwa [hold n hnp] at hyrem
    rw [hmark]
    rcases h.seen n (hmark n ▸ hn) y hy hyold with hseen | hseen
    · exact .inl hseen
    · exact .inl (by rw [hseen]; exact hvisited)
  · intro n hn hnlo
    by_cases hnv : n = x.2.1
    · subst hnv
      exact ⟨np, x, by rw [hmark]; exact hvisited, hx, by simpa using hnodup, rfl⟩
    · have hn' : (m.nodes n).visited = true := hmark n ▸ hn.resolve_right hnv
      obtain ⟨u, y, hu, hy, hyrem, hyn⟩ := h.arrived n (.inl hn') hnlo
      exact ⟨u, y, by rw [hmark]; exact hu, hy, hshrink u y hyrem, hyn⟩
  · intro n hn
    rw [hstart n fun heq => hout (heq ▸ hn)]
    exact h.leaf n hn
  · intro hv hnil
    rw [hmark] at hv
    rw [hstart _ hvnp, h.leaf _ hnil]
    by_contra hcursor
    obtain ⟨u, y, hu, hy, hyrem, hyv⟩ := h.arrived _ (.inl hv) hlo
    obtain ⟨hunp, hyx⟩ := hs.cursor _ (h.top_reached.tail hadj) hnil hcursor u np y x
      (h.reached u hu) h.top_reached hy hx hyv rfl
    rw [hunp, hyx, hrem] at hyrem
    exact hyrem (.head _)

end

/-- A search that has come back to where it started has seen everything reachable. -/
theorem exhausted (h : SearchInv m₀ out lomaj upmaj m lomaj [] rem)
    (hvisited : (m.nodes lomaj).visited = true) (hrem : rem lomaj = []) :
    ¬ Relation.ReflTransGen (Adj out) lomaj upmaj := by
  have hclosed : ∀ n, Relation.ReflTransGen (Adj out) lomaj n → (m.nodes n).visited = true := by
    intro n hn
    induction hn with
    | refl => exact hvisited
    | @tail u v _ huv ih =>
      obtain ⟨x, hx, rfl⟩ := huv
      have hnil : rem u = [] := by
        by_cases hu : u = lomaj
        · rw [hu]
          exact hrem
        · exact h.done u ih (by simpa using hu)
      rcases h.seen u ih x hx (by simp [hnil]) with hseen | hseen
      · exact hseen
      · rw [hseen]
        exact hvisited
  intro hpath
  exact h.notTarget upmaj (hclosed upmaj hpath) rfl

end SearchInv

/-- What a pass of the search may do: go on with less to do, or return the right answer. -/
def PassOk (m₀ : Table) (out : Nat → List EdgeCell) (lomaj upmaj : Nat) (bound : Nat) :
    Search → Prop
  | .next m np => ∃ stack rem, SearchInv m₀ out lomaj upmaj m np stack rem ∧
      CursorRead out m np ∧ potential m out rem stack < bound
  | .ret m code => SameLists m₀ m ∧ (code = 0 ∨ code = 1) ∧
      (code = 1 ↔ Relation.ReflTransGen (Adj out) lomaj upmaj)
  | .fault => False

theorem potential_mark (out rem : Nat → List EdgeCell) (stack : List Nat) (hin : np < m.cdevcnt) (hcdev : m₁.cdevcnt = m.cdevcnt)
    (hnew : (m.nodes np).visited = false) (hmark : (m₁.nodes np).visited = true)
    (hother : ∀ n, n ≠ np → (m₁.nodes n).visited = (m.nodes n).visited) :
    potential m₁ out (update rem np (out np)) stack + 2 = potential m out rem stack := by
  unfold potential
  rw [hcdev]
  have hsum := sum_range_change (f := fun n => if (m.nodes n).visited = true then
      2 * (rem n).length else 2 * (out n).length + 2)
    (g := fun n => if (m₁.nodes n).visited = true then
      2 * (update rem np (out np) n).length else 2 * (out n).length + 2) hin
    (by
      intro n hn
      simp only [hother n hn, update_of_ne hn])
  simp only [hnew, hmark, Bool.false_eq_true, if_false, if_true, update_self] at hsum
  omega

theorem potential_push (out : Nat → List EdgeCell) (stack : List Nat) {x : EdgeCell} (hin : np < m.cdevcnt)
    (hcdev : m'.cdevcnt = m.cdevcnt) (hsame : ∀ n, (m'.nodes n).visited = (m.nodes n).visited)
    (hvisited : (m.nodes np).visited = true) (hrem : rem np = x :: r) :
    potential m' out (update rem np r) (np :: stack) + 1 = potential m out rem stack := by
  unfold potential
  rw [hcdev]
  have hsum := sum_range_change (f := fun n => if (m.nodes n).visited = true then
      2 * (rem n).length else 2 * (out n).length + 2)
    (g := fun n => if (m'.nodes n).visited = true then
      2 * (update rem np r n).length else 2 * (out n).length + 2) hin
    (by
      intro n hn
      simp only [hsame, update_of_ne hn])
  simp only [hsame, hvisited, if_true, update_self, hrem, length_cons] at hsum
  simp only [hsame, length_cons]
  omega

/-- Going back from a node with nothing left to follow, or ending the search there. -/
theorem SearchInv.return_ok {bound : Nat} (h : SearchInv m₀ out lomaj upmaj m np stack rem)
    (hvisited : (m.nodes np).visited = true) (hrem : rem np = [])
    (hbound : potential m out rem stack ≤ bound) : PassOk m₀ out lomaj upmaj bound (goBack m np) := by
  unfold goBack
  cases stack with
  | nil =>
    have hnp : np = lomaj := by simpa using h.bottom
    subst hnp
    rw [h.bottomOrigin]
    exact ⟨h.same, .inl rfl, by simpa using h.exhausted hvisited hrem⟩
  | cons u st =>
    obtain ⟨hinv, horigin, hc⟩ := h.pop hvisited hrem
    rw [horigin]
    refine ⟨st, rem, hinv, hc, ?_⟩
    simp only [potential, length_cons] at hbound ⊢
    omega

section

variable (hs : Searchable m₀ out lomaj) (h : SearchInv m₀ out lomaj upmaj m np stack rem)
include hs h

/-- The pass that visits a node for the first time. -/
theorem linkcycleStep_first (hv : (m.nodes np).visited = false) :
    PassOk m₀ out lomaj upmaj (potential m out rem stack) (linkcycleStep upmaj m np) := by
  have hin : np < m₀.cdevcnt := hs.inside np h.top_reached
  have hin' : np < m.cdevcnt := h.same.cdevcnt ▸ hin
  have hnot : ¬ m.cdevcnt ≤ np := by omega
  have himaj : (m.nodes np).imaj = np := (h.same.imaj np).trans (hs.imaj np hin)
  have hchain : Edges m (m.nodes np).outp (out np) := by
    rw [h.same.outp, Edges, h.same.edges]
    exact hs.chain np hin
  by_cases hup : np = upmaj
  · have hstep : linkcycleStep upmaj m np = .ret m 1 := by
      simp [linkcycleStep, hnot, hv, himaj.trans hup]
    rw [hstep]
    exact ⟨h.same, .inr rfl, by simpa [hup] using h.top_reached⟩
  cases houtp : (m.nodes np).outp with
  | none =>
    rw [houtp] at hchain
    have hnil : out np = [] := hchain.eq_nil
    obtain ⟨m₁, hm₁⟩ : ∃ m₁, m₁ = m.setNode np { m.nodes np with visited := true } := ⟨_, rfl⟩
    have hstep : linkcycleStep upmaj m np = goBack m₁ np := by
      simp [linkcycleStep, hnot, hv, himaj, hup, houtp, hm₁]
    have hinv := h.mark hv hup (m.nodes np).startp (fun _ => rfl) (fun hne => absurd hnil hne)
    rw [← hm₁] at hinv
    have hpot := potential_mark out rem stack hin'
      (show m₁.cdevcnt = m.cdevcnt by rw [hm₁]; rfl) hv (by simp [hm₁])
      fun n hn => by rw [hm₁, Table.setNode_of_ne _ _ hn]
    rw [hstep]
    exact hinv.return_ok (by simp [hm₁]) (by simp [hnil]) (by omega)
  | some ep =>
    rw [houtp] at hchain
    have hne : out np ≠ [] := by
      intro hnil
      rw [hnil] at hchain
      exact absurd hchain.start_eq_none (by simp)
    obtain ⟨m₁, hm₁⟩ : ∃ m₁, m₁ =
        m.setNode np { m.nodes np with visited := true, startp := some ep } := ⟨_, rfl⟩
    have hstep : linkcycleStep upmaj m np = .next m₁ np := by
      simp [linkcycleStep, hnot, hv, himaj, hup, houtp, hm₁]
    have hinv := h.mark hv hup (some ep) (fun hnil => absurd hnil hne) (fun _ => hchain)
    rw [← hm₁] at hinv
    have hpot := potential_mark out rem stack hin'
      (show m₁.cdevcnt = m.cdevcnt by rw [hm₁]; rfl) hv (by simp [hm₁])
      fun n hn => by rw [hm₁, Table.setNode_of_ne _ _ hn]
    rw [hstep]
    exact ⟨stack, _, hinv, fun _ hnil => absurd hnil hne, by omega⟩

/-- The pass at a node visited before. -/
theorem linkcycleStep_again (hc : CursorRead out m np) (hv : (m.nodes np).visited = true) :
    PassOk m₀ out lomaj upmaj (potential m out rem stack) (linkcycleStep upmaj m np) := by
  have hin : np < m.cdevcnt := h.same.cdevcnt ▸ hs.inside np h.top_reached
  have hnot : ¬ m.cdevcnt ≤ np := by omega
  cases hstart : (m.nodes np).startp with
  | none =>
    have hrem : rem np = [] := by
      by_cases hnil : out np = []
      · exact eq_nil_of_suffix_nil (hnil ▸ h.suffix np hv)
      · have hleft := h.chain np hv hnil
        rw [hstart] at hleft
        exact hleft.eq_nil
    have hstep : linkcycleStep upmaj m np = goBack m np := by
      simp [linkcycleStep, hnot, hv, hstart]
    rw [hstep]
    exact h.return_ok hv hrem le_rfl
  | some ep =>
    have hne : out np ≠ [] := fun hnil => by
      have hnone := hc hv hnil
      rw [hstart] at hnone
      exact absurd hnone (by simp)
    have hleft := h.chain np hv hne
    rw [hstart] at hleft
    cases hrem : rem np with
    | nil =>
      rw [hrem] at hleft
      exact absurd hleft.start_eq_none (by simp)
    | cons x r =>
      rw [hrem] at hleft
      cases hleft with
      | @cons _ edge _ hcell hrest =>
        obtain ⟨m₁, hm₁⟩ : ∃ m₁, m₁ = m.setNode np { m.nodes np with startp := edge.nextp } := ⟨_, rfl⟩
        obtain ⟨m₂, hm₂⟩ : ∃ m₂, m₂ =
            m₁.setNode edge.nodep { m₁.nodes edge.nodep with originp := some np } := ⟨_, rfl⟩
        obtain ⟨hinv, hc', hmark⟩ := h.push hs hv hrem hrest hm₁ hm₂
        have hinside : edge.nodep < m.cdevcnt := by
          rw [h.same.cdevcnt]
          exact hs.inside _ hinv.top_reached
        have hstep : linkcycleStep upmaj m np = .next m₂ edge.nodep := by
          simp [linkcycleStep, hnot, hv, hstart, hcell, hinside.not_ge, hm₂, hm₁]
        have hpot := potential_push out stack hin
          (show m₂.cdevcnt = m.cdevcnt by rw [hm₂, hm₁]; rfl) hmark hv hrem
        rw [hstep]
        exact ⟨np :: stack, _, hinv, hc', by omega⟩

theorem linkcycleStep_ok (hc : CursorRead out m np) :
    PassOk m₀ out lomaj upmaj (potential m out rem stack) (linkcycleStep upmaj m np) := by
  cases hv : (m.nodes np).visited with
  | false => exact linkcycleStep_first hs h hv
  | true => exact linkcycleStep_again hs h hc hv

theorem linkcycleLoop_total (hc : CursorRead out m np) :
    ∃ fuel m' code, linkcycleLoop upmaj fuel m np = .returned m' code ∧ SameLists m₀ m' ∧
      (code = 0 ∨ code = 1) ∧ (code = 1 ↔ Relation.ReflTransGen (Adj out) lomaj upmaj) := by
  induction hpot : potential m out rem stack using Nat.strong_induction_on
    generalizing m np stack rem with
  | _ bound ih =>
    have hpass := linkcycleStep_ok hs h hc
    cases hstep : linkcycleStep upmaj m np with
    | next m₁ np₁ =>
      rw [hstep] at hpass
      obtain ⟨stack₁, rem₁, hinv, hc₁, hless⟩ := hpass
      obtain ⟨fuel, m', code, hloop, hrest⟩ := ih _ (hpot ▸ hless) hinv hc₁ rfl
      refine ⟨fuel + 1, m', code, ?_, hrest⟩
      rw [linkcycleLoop, hstep]
      exact hloop
    | ret m₁ code =>
      rw [hstep] at hpass
      refine ⟨1, m₁, code, ?_, hpass⟩
      rw [linkcycleLoop, hstep]
    | fault =>
      rw [hstep] at hpass
      exact hpass.elim

end

theorem linkcycleLoop_fuel {fuel fuel' code : Nat}
    (h : linkcycleLoop upmaj fuel m np = .returned m' code) (hle : fuel ≤ fuel') :
    linkcycleLoop upmaj fuel' m np = .returned m' code := by
  induction fuel generalizing m np fuel' with
  | zero => simp [linkcycleLoop] at h
  | succ fuel ih =>
    obtain ⟨k, rfl⟩ : ∃ k, fuel' = k + 1 := ⟨fuel' - 1, by omega⟩
    rw [linkcycleLoop] at h ⊢
    cases hstep : linkcycleStep upmaj m np with
    | next m₁ np₁ =>
      rw [hstep] at h
      exact ih h (by omega)
    | ret m₁ code₁ =>
      rw [hstep] at h
      exact h
    | fault =>
      rw [hstep] at h
      exact absurd h (by simp)

theorem linkcycleLoop_stuck (h : linkcycleStep upmaj m np = .next m np) (fuel : Nat) :
    linkcycleLoop upmaj fuel m np = .running := by
  induction fuel with
  | zero => rfl
  | succ fuel ih =>
    rw [linkcycleLoop, h]
    exact ih

theorem linkcycle_unique {up lo : Stdata} {fuel fuel' code code' : Nat}
    (h : linkcycle fuel m up lo = .returned m₁ code)
    (h' : linkcycle fuel' m up lo = .returned m₂ code') : m₁ = m₂ ∧ code = code' := by
  unfold linkcycle at h h'
  split at h
  · rename_i hfifo
    rw [if_pos hfifo] at h'
    rw [h] at h'
    simpa using h'
  · rename_i hfifo
    rw [if_neg hfifo] at h'
    have hmax := linkcycleLoop_fuel h (le_max_left fuel fuel')
    rw [linkcycleLoop_fuel h' (le_max_right fuel fuel')] at hmax
    simp only [Outcome.returned.injEq] at hmax
    exact ⟨hmax.1.symm, hmax.2.symm⟩

theorem linkcycle_total (up : Stdata) {lo : Stdata} (hfifo : lo.isFifo = false)
    (hs : Searchable m out lo.major) :
    ∃ fuel m' code, linkcycle fuel m up lo = .returned m' code ∧ SameLists m m' ∧
      (code = 0 ∨ code = 1) ∧
      (code = 1 ↔ Relation.ReflTransGen (Adj out) lo.major up.major) := by
  have hs' : Searchable (muxClear m) out lo.major :=
    ⟨hs.chain, hs.nodup, hs.imaj, hs.inside, hs.acyclic, hs.cursor⟩
  have hinv : SearchInv (muxClear m) out lo.major up.major (muxClear m) lo.major [] out := by
    refine ⟨SameLists.refl _, ?_, ?_, rfl, ?_, ?_, ?_, ?_, ?_, ?_, ?_, ?_, ?_⟩ <;>
      simp [muxClear]
  obtain ⟨fuel, m', code, hloop, hsame, hcode⟩ :=
    linkcycleLoop_total hs' hinv fun hvisited => by simp [muxClear] at hvisited
  refine ⟨fuel, m', code, ?_, (muxClear_sameLists m).trans hsame, hcode⟩
  simp [linkcycle, hfifo, hloop]

end Svr42.Mux
