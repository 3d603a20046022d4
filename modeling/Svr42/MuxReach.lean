import Svr42.MuxSearch

/-! Runs of link and unlink operations. The edge lists spell the current links, so that what
`linkcycle` computes about the lists is about the links; and a link admitted without a path back
keeps the link graph acyclic. -/

namespace Svr42.Mux
open Function List

/-- The target and the id under which `mux_addedge` records a link. -/
def Link.payload (l : Link) : Nat × Int := (l.lo, l.index)

/-- The edge lists `out` of the table are the links of the state, node by node. -/
structure TableInv (s : LinkState) (out : Nat → List EdgeCell) : Prop where
  chain : ∀ n, n < s.mux.cdevcnt → Edges s.mux (s.mux.nodes n).outp (out n)
  outside : ∀ n, s.mux.cdevcnt ≤ n → out n = []
  ptrs : ∀ n, ((out n).map Prod.fst).Nodup
  apart : ∀ n n', n ≠ n' → ∀ p ∈ (out n).map Prod.fst, p ∉ (out n').map Prod.fst
  links : ∀ n, (out n).map Prod.snd = (s.links.filter fun l => l.up = n).map Link.payload
  imaj : ∀ n, n < s.mux.cdevcnt → (s.mux.nodes n).imaj = n
  indices : (s.links.map Link.index).Nodup

variable {fuel new : Nat}

section

variable {m m' : Table} {cells : List EdgeCell}

/-- An update of one node's list: the other nodes, and the edges outside the list, are as before. -/
structure ListUpdate (m m' : Table) (up : Nat) (cells cells' : List EdgeCell)
    (extra : Nat → Prop) : Prop where
  chain : Edges m' (m'.nodes up).outp cells'
  cdevcnt : m'.cdevcnt = m.cdevcnt
  nodes : ∀ n, n ≠ up → m'.nodes n = m.nodes n
  imaj : (m'.nodes up).imaj = (m.nodes up).imaj
  frame : ∀ p, p ∉ cells.map Prod.fst → ¬ extra p → m'.edges p = m.edges p

theorem lastEdge_spec {ep last : Nat} {edge : MuxEdge} (hchain : Edges m (some ep) cells)
    (h : lastEdge m.edges fuel ep = some (last, edge)) :
    m.edges last = some edge ∧ ∃ front, cells = front ++ [(last, edge.payload)] := by
  induction fuel generalizing ep cells with
  | zero => simp [lastEdge] at h
  | succ fuel ih =>
    cases hchain with
    | @cons _ cell rest hcell hrest =>
      simp only [lastEdge, hcell, Option.bind_eq_bind, Option.bind_some] at h
      cases hnext : cell.nextp with
      | none =>
        rw [hnext] at h hrest
        simp only [Option.pure_def, Option.some.injEq, Prod.mk.injEq] at h
        obtain ⟨rfl, rfl⟩ := h
        rw [hrest.eq_nil]
        exact ⟨hcell, [], rfl⟩
      | some next =>
        rw [hnext] at h hrest
        obtain ⟨hlast, front, hfront⟩ := ih hrest h
        exact ⟨hlast, (ep, cell.payload) :: front, by rw [hfront]; rfl⟩

variable {muxid : Int}

/-- `mux_addedge` appends the new edge to the list of the upper major. -/
theorem muxAddedge_spec {up lo : Stdata} (hchain : Edges m (m.nodes up.major).outp cells)
    (hptrs : (cells.map Prod.fst).Nodup) (hnew : m.edges new = none)
    (h : muxAddedge fuel m up lo muxid (some new) = some (m', true)) :
    ListUpdate m m' up.major cells (cells ++ [(new, lo.major, muxid)]) (· = new) := by
  have hfresh : new ∉ cells.map Prod.fst := by
    intro hmem
    obtain ⟨x, hx, rfl⟩ := mem_map.mp hmem
    obtain ⟨cell, hcell, -⟩ := hchain.cell_exists hx
    rw [hnew] at hcell
    exact absurd hcell (by simp)
  cases houtp : (m.nodes up.major).outp with
  | none =>
    rw [houtp] at hchain
    simp only [muxAddedge, houtp, Option.some.injEq, Prod.mk.injEq, and_true] at h
    subst h
    rw [hchain.eq_nil]
    refine ⟨?_, rfl, fun n hn => ?_, by simp, fun p _ hp => ?_⟩
    · simp only [Table.setEdge_nodes, Table.setNode_self, nil_append]
      have hcell : (update m.edges new (some ⟨lo.major, none, muxid⟩)) new =
          some (⟨lo.major, none, muxid⟩ : MuxEdge) := update_self _ _ _
      exact Chain.single hcell rfl rfl
    · simp [Table.setNode_of_ne _ _ hn]
    · simp [update_of_ne hp]
  | some first =>
    rw [houtp] at hchain
    simp only [muxAddedge, houtp, Option.bind_eq_bind] at h
    cases hlast : lastEdge m.edges fuel first with
    | none => simp [hlast] at h
    | some res =>
      obtain ⟨last, edge⟩ := res
      obtain ⟨hcell, front, rfl⟩ := lastEdge_spec hchain hlast
      simp only [hlast, Option.bind_some, Option.pure_def, Option.some.injEq, Prod.mk.injEq,
        and_true] at h
      subst h
      have hne : new ≠ last := fun heq => hfresh (by simp [heq])
      have hcomm : ((m.setEdge last (some { edge with nextp := some new })).setEdge new
          (some ⟨lo.major, none, muxid⟩)).edges = update
            (update m.edges new (some ⟨lo.major, none, muxid⟩)) last
            (some { edge with nextp := some new }) := by
        simp only [Table.setEdge_edges]
        exact update_comm hne.symm _ _ _
      refine ⟨?_, rfl, fun n _ => rfl, rfl, fun p hp hpn => ?_⟩
      · rw [Edges, hcomm, append_assoc]
        simp only [Table.setEdge_nodes, houtp]
        refine (hchain.update_of_notMem hfresh).splice ?_ rfl rfl ?_
        · simpa using hptrs
        · have hcell : update (update m.edges new
              (some ⟨lo.major, none, muxid⟩)) last (some { edge with nextp := some new }) new =
              some (⟨lo.major, none, muxid⟩ : MuxEdge) := by
            rw [update_of_ne hne, update_self]
          exact Chain.single hcell rfl rfl
      · rw [hcomm, update_of_ne, update_of_ne hpn]
        rintro rfl
        exact hp (by simp)

theorem muxAddedge_noMemory {up lo : Stdata} {made : Bool}
    (h : muxAddedge fuel m up lo muxid none = some (m', made)) : m' = m := by
  cases houtp : (m.nodes up.major).outp with
  | none =>
    simp only [muxAddedge, houtp, Option.some.injEq, Prod.mk.injEq] at h
    exact h.1.symm
  | some first =>
    simp only [muxAddedge, houtp, Option.bind_eq_bind] at h
    cases hlast : lastEdge m.edges fuel first with
    | none => simp [hlast] at h
    | some res =>
      simp only [hlast, Option.bind_some, Option.pure_def, Option.some.injEq, Prod.mk.injEq] at h
      exact h.1.symm

/-- The walk of `mux_rmvedge`: it takes out the first edge with the id, or finds none. -/
theorem rmvedgeWalk_spec {up : Nat} {pep ep : Option Nat} {front back : List EdgeCell}
    (hchain : Edges m (m.nodes up).outp (front ++ back)) (hep : Edges m ep back)
    (hpep : pep = (front.map Prod.fst).getLast?) (hptrs : ((front ++ back).map Prod.fst).Nodup)
    (hfront : ∀ x ∈ front, x.2.2 ≠ muxid) (h : rmvedgeWalk m up muxid fuel pep ep = some m') :
    (m' = m ∧ ∀ x ∈ front ++ back, x.2.2 ≠ muxid) ∨
      ∃ pre x post, front ++ back = pre ++ x :: post ∧ x.2.2 = muxid ∧
        (∀ y ∈ pre, y.2.2 ≠ muxid) ∧
        ListUpdate m m' up (front ++ back) (pre ++ post) fun _ => False := by
  induction fuel generalizing pep ep front back with
  | zero =>
    cases hep with
    | nil =>
      simp only [rmvedgeWalk, Option.some.injEq] at h
      exact .inl ⟨h.symm, by simpa using hfront⟩
    | cons _ _ => simp [rmvedgeWalk] at h
  | succ fuel ih =>
    cases hep with
    | nil =>
      simp only [rmvedgeWalk, Option.some.injEq] at h
      exact .inl ⟨h.symm, by simpa using hfront⟩
    | @cons p edge rest hcell hrest =>
      simp only [rmvedgeWalk, hcell, Option.bind_eq_bind, Option.bind_some] at h
      by_cases hid : edge.muxid = muxid
      · refine .inr ⟨front, (p, edge.payload), rest, rfl, hid, hfront, ?_⟩
        rw [if_pos hid] at h
        rcases eq_nil_or_concat front with rfl | ⟨pre, ⟨q, w⟩, rfl⟩
        · have hpep' : pep = none := by simpa using hpep
          subst hpep'
          simp only [Option.pure_def, Option.some.injEq] at h
          subst h
          simp only [nil_append, map_cons, nodup_cons] at hptrs
          refine ⟨?_, rfl, fun n hn => ?_, by simp, fun k hk _ => ?_⟩
          · simp only [Table.setEdge_nodes, Table.setNode_self, nil_append]
            exact hrest.update_of_notMem hptrs.1
          · simp [Table.setNode_of_ne _ _ hn]
          · simp only [Table.setEdge_edges, Table.setNode_edges]
            rw [update_of_ne]
            rintro rfl
            exact hk (by simp)
        · have hpep' : pep = some q := by simpa using hpep
          subst hpep'
          have hmem : (q, w) ∈ pre.concat (q, w) ++ (p, edge.payload) :: rest := by simp
          obtain ⟨pedge, hpcell, hpval⟩ := hchain.cell_exists hmem
          simp only [hpcell, Option.bind_some, Option.pure_def, Option.some.injEq] at h
          subst h
          simp only [concat_eq_append, append_assoc, cons_append, nil_append] at hchain hptrs ⊢
          refine ⟨?_, rfl, fun n _ => rfl, rfl, fun k hk _ => ?_⟩
          · exact hchain.unlink hptrs hcell hpval rfl
          · simp only [Table.setEdge_edges]
            rw [update_of_ne, update_of_ne]
            · rintro rfl
              exact hk (by simp)
            · rintro rfl
              exact hk (by simp)
      · rw [if_neg hid] at h
        have hsplit : front ++ (p, edge.payload) :: rest =
            (front ++ [(p, edge.payload)]) ++ rest := by simp
        rw [hsplit] at hchain hptrs ⊢
        refine ih hchain hrest (by simp) hptrs ?_ h
        intro x hx
        rcases mem_append.mp hx with hx | hx
        · exact hfront x hx
        · rw [mem_singleton] at hx
          rw [hx]
          exact hid

end

variable {links : List Link}

namespace TableInv

variable {s t : LinkState} {out : Nat → List EdgeCell} {m m' : Table}

theorem initial (cdevcnt : Nat) : TableInv (initial cdevcnt) fun _ => [] := by
  refine ⟨fun n _ => Chain.nil, ?_, ?_, ?_, ?_, ?_, ?_⟩ <;> simp [Mux.initial, strinit]

section

variable (h : TableInv s out)
include h

theorem link_of_edge {n : Nat} {x : EdgeCell} (hx : x ∈ out n) :
    ∃ l ∈ s.links, l.up = n ∧ l.payload = x.2 := by
  have hmem : x.2 ∈ (out n).map Prod.snd := mem_map_of_mem hx
  rw [h.links] at hmem
  obtain ⟨l, hl, hlx⟩ := mem_map.mp hmem
  rw [mem_filter, decide_eq_true_eq] at hl
  exact ⟨l, hl.1, hl.2, hlx⟩

theorem edge_of_link {l : Link} (hl : l ∈ s.links) : ∃ x ∈ out l.up, x.2 = l.payload := by
  have hmem : l.payload ∈ (out l.up).map Prod.snd := by
    rw [h.links]
    exact mem_map_of_mem (by simp [hl])
  exact mem_map.mp hmem

theorem adj_iff (u v : Nat) : Adj out u v ↔ Linked s.links u v := by
  constructor
  · rintro ⟨x, hx, rfl⟩
    obtain ⟨l, hl, hup, hpay⟩ := h.link_of_edge hx
    exact ⟨l, hl, hup, congrArg Prod.fst hpay⟩
  · rintro ⟨l, hl, rfl, rfl⟩
    obtain ⟨x, hx, hpay⟩ := h.edge_of_link hl
    exact ⟨x, hx, congrArg Prod.fst hpay⟩

theorem adj_eq : Adj out = Linked s.links := by
  funext u v
  exact propext (h.adj_iff u v)

theorem sameLists (hsame : SameLists s.mux m) : TableInv { s with mux := m } out := by
  refine ⟨fun n hn => ?_, fun n hn => ?_, h.ptrs, h.apart, h.links, fun n hn => ?_, h.indices⟩
  · rw [Edges, hsame.edges, hsame.outp]
    exact h.chain n (hsame.cdevcnt ▸ hn)
  · exact h.outside n (hsame.cdevcnt ▸ hn)
  · rw [hsame.imaj]
    exact h.imaj n (hsame.cdevcnt ▸ hn)

theorem ptr_allocated {n p : Nat} (hp : p ∈ (out n).map Prod.fst) : s.mux.edges p ≠ none := by
  obtain ⟨x, hx, rfl⟩ := mem_map.mp hp
  have hn : n < s.mux.cdevcnt := by
    by_contra hnot
    rw [h.outside n (by omega)] at hx
    exact absurd hx (not_mem_nil)
  obtain ⟨cell, hcell, -⟩ := (h.chain n hn).cell_exists hx
  simp [hcell]

theorem chain_frame {n : Nat} (hn : n < s.mux.cdevcnt)
    (hcells : ∀ p ∈ (out n).map Prod.fst, m.edges p = s.mux.edges p) :
    Edges m (s.mux.nodes n).outp (out n) :=
  (h.chain n hn).congr fun x hx => hcells x.1 (mem_map_of_mem hx)

/-- The lists after one node's list has been rewritten. -/
theorem rewrite {up : Nat} {cells : List EdgeCell} (hup : up < s.mux.cdevcnt)
    (hcdev : m.cdevcnt = s.mux.cdevcnt) (hchain : Edges m (m.nodes up).outp cells)
    (hnodes : ∀ n, n ≠ up → m.nodes n = s.mux.nodes n)
    (himaj : (m.nodes up).imaj = (s.mux.nodes up).imaj)
    (hframe : ∀ n, n ≠ up → ∀ p ∈ (out n).map Prod.fst, m.edges p = s.mux.edges p)
    (hptrs : (cells.map Prod.fst).Nodup)
    (hapart : ∀ n, n ≠ up → ∀ p ∈ cells.map Prod.fst, p ∉ (out n).map Prod.fst)
    (hlinks : ∀ n, (update out up cells n).map Prod.snd =
      (links.filter fun l => l.up = n).map Link.payload) (hindices : (links.map Link.index).Nodup) :
    TableInv ⟨m, links⟩ (update out up cells) := by
  refine ⟨fun n hn => ?_, fun n hn => ?_, fun n => ?_, fun n n' hne p hp => ?_, hlinks,
    fun n hn => ?_, hindices⟩
  · by_cases hnu : n = up
    · subst hnu
      simpa using hchain
    · rw [update_of_ne hnu, hnodes n hnu]
      exact h.chain_frame (hcdev ▸ hn) (hframe n hnu)
  · have hnu : n ≠ up := by
      rintro rfl
      simp only [hcdev] at hn
      omega
    rw [update_of_ne hnu]
    exact h.outside n (hcdev ▸ hn)
  · by_cases hnu : n = up
    · subst hnu
      simpa using hptrs
    · rw [update_of_ne hnu]
      exact h.ptrs n
  · by_cases hnu : n = up
    · subst hnu
      rw [update_of_ne hne.symm]
      exact hapart n' hne.symm p (by simpa using hp)
    rw [update_of_ne hnu] at hp
    by_cases hnu' : n' = up
    · subst hnu'
      rw [update_self]
      exact fun hp' => hapart n hnu p hp' hp
    · rw [update_of_ne hnu']
      exact h.apart n n' hne p hp
  · by_cases hnu : n = up
    · subst hnu
      rw [himaj]
      exact h.imaj n (hcdev ▸ hn)
    · rw [hnodes n hnu]
      exact h.imaj n (hcdev ▸ hn)

theorem add {up lo : Stdata} {index : Int} (hup : up.major < s.mux.cdevcnt)
    (hindex : ∀ l ∈ s.links, l.index ≠ index) (hnew : s.mux.edges new = none)
    (hadd : muxAddedge fuel s.mux up lo index (some new) = some (m, true)) :
    TableInv ⟨m, s.links ++ [⟨up.major, lo.major, index⟩]⟩
      (update out up.major (out up.major ++ [(new, lo.major, index)])) := by
  have hspec := muxAddedge_spec (h.chain _ hup) (h.ptrs _) hnew hadd
  have hfresh : ∀ n, new ∉ (out n).map Prod.fst := fun n hmem => h.ptr_allocated hmem hnew
  refine h.rewrite hup hspec.cdevcnt hspec.chain hspec.nodes hspec.imaj ?_ ?_ ?_ ?_ ?_
  · intro n hn p hp
    refine hspec.frame p (h.apart n _ hn p hp) ?_
    rintro rfl
    exact hfresh n hp
  · rw [map_append, nodup_append]
    refine ⟨h.ptrs _, by simp, ?_⟩
    intro a ha b hb
    have hb' : b = new := by simpa using hb
    subst hb'
    rintro rfl
    exact hfresh _ ha
  · intro n hn p hp hp'
    rw [map_append, mem_append] at hp
    rcases hp with hp | hp
    · exact h.apart _ _ hn.symm p hp hp'
    · have hpnew : p = new := by simpa using hp
      exact hfresh n (hpnew ▸ hp')
  · intro n
    rw [filter_append, map_append, ← h.links n]
    by_cases hn : n = up.major
    · subst hn
      simp [Link.payload]
    · rw [update_of_ne hn]
      simp [Ne.symm hn]
  · rw [map_append, nodup_append]
    refine ⟨h.indices, by simp, ?_⟩
    intro a ha b hb
    obtain ⟨l, hl, rfl⟩ := mem_map.mp ha
    have hb' : b = index := by simpa using hb
    rw [hb']
    exact hindex l hl

theorem index_unique {n n' : Nat} {x x' : EdgeCell} (hx : x ∈ out n) (hx' : x' ∈ out n')
    (hid : x.2.2 = x'.2.2) : n = n' := by
  obtain ⟨l, hl, rfl, hlx⟩ := h.link_of_edge hx
  obtain ⟨l', hl', rfl, hlx'⟩ := h.link_of_edge hx'
  have hindex : l.index = l'.index := by
    rw [show l.index = x.2.2 from congrArg Prod.snd hlx, hid]
    exact (congrArg Prod.snd hlx').symm
  rw [inj_on_of_nodup_map h.indices hl hl' hindex]

theorem ids_nodup (n : Nat) : ((out n).map fun x => x.2.2).Nodup := by
  have hids : (out n).map (fun x => x.2.2) = (s.links.filter fun l => l.up = n).map Link.index := by
    have hsnd := congrArg (List.map Prod.snd) (h.links n)
    simpa [map_map, Function.comp_def, Link.payload] using hsnd
  rw [hids]
  exact h.indices.sublist (filter_sublist.map _)

/-- Taking the edge of a link out of the list of its upper major. -/
theorem remove {l : Link} {fuel : Nat} (hl : l ∈ s.links)
    (hrmv : muxRmvedge fuel s.mux l.up l.index = some m) :
    ∃ out', TableInv ⟨m, s.links.filter fun k => k.index ≠ l.index⟩ out' := by
  obtain ⟨z, hz, hzl⟩ := h.edge_of_link hl
  have hzid : z.2.2 = l.index := congrArg Prod.snd hzl
  have hup : l.up < s.mux.cdevcnt := by
    by_contra hnot
    rw [h.outside _ (by omega)] at hz
    exact absurd hz (not_mem_nil)
  have hchain := h.chain _ hup
  rcases rmvedgeWalk_spec (show Edges s.mux _ ([] ++ out l.up) from hchain) hchain rfl
    (h.ptrs _) (by simp) hrmv with ⟨-, hnone⟩ | ⟨pre, x, post, hsplit, hid, hpre, hspec⟩
  · exact absurd hzid (hnone z (by simpa using hz))
  · rw [nil_append] at hsplit hspec
    have hsub : (pre ++ post).Sublist (out l.up) := by
      rw [hsplit]
      simp
    have hpost : ∀ y ∈ post, y.2.2 ≠ l.index := by
      have hids := h.ids_nodup l.up
      rw [hsplit, map_append, map_cons, nodup_append, nodup_cons] at hids
      intro y hy hyid
      refine hids.2.1.1 ?_
      rw [hid, ← hyid]
      exact mem_map_of_mem hy
    have hfilter : (pre ++ post).map Prod.snd =
        ((out l.up).map Prod.snd).filter fun p => p.2 ≠ l.index := by
      rw [hsplit]
      simp only [map_append, map_cons, filter_append]
      rw [filter_cons_of_neg (by simp [hid]), filter_eq_self.mpr, filter_eq_self.mpr]
      · intro p hp
        obtain ⟨y, hy, rfl⟩ := mem_map.mp hp
        simpa using hpost y hy
      · intro p hp
        obtain ⟨y, hy, rfl⟩ := mem_map.mp hp
        simpa using hpre y hy
    refine ⟨update out l.up (pre ++ post), h.rewrite hup hspec.cdevcnt hspec.chain
      hspec.nodes hspec.imaj ?_ ?_ ?_ ?_ ?_⟩
    · exact fun n hn p hp => hspec.frame p (h.apart n _ hn p hp) id
    · exact (h.ptrs _).sublist (hsub.map _)
    · exact fun n hn p hp => h.apart _ _ hn.symm p ((hsub.map _).subset hp)
    · intro n
      have hright : ((s.links.filter fun k => k.index ≠ l.index).filter fun k => k.up = n).map
          Link.payload = ((out n).map Prod.snd).filter fun p => p.2 ≠ l.index := by
        rw [h.links, filter_map, filter_filter, filter_filter]
        congr 1
        exact filter_congr fun k _ => Bool.and_comm _ _
      rw [hright]
      by_cases hn : n = l.up
      · subst hn
        rw [update_self, hfilter]
      rw [update_of_ne hn, filter_eq_self.mpr]
      intro p hp
      obtain ⟨y, hy, rfl⟩ := mem_map.mp hp
      simp only [ne_eq, decide_not, Bool.not_eq_eq_eq_not, Bool.not_true, decide_eq_false_iff_not]
      exact fun hyid => hn (h.index_unique hy hz (hyid.trans hzid.symm))
    · exact h.indices.sublist (filter_sublist.map _)

theorem remove_absent {up : Nat} {index : Int} (hup : up < s.mux.cdevcnt)
    (hindex : ∀ l ∈ s.links, l.index ≠ index) (hrmv : muxRmvedge fuel s.mux up index = some m) :
    m = s.mux := by
  have hchain := h.chain _ hup
  rcases rmvedgeWalk_spec (show Edges s.mux _ ([] ++ out up) from hchain) hchain rfl
    (h.ptrs _) (by simp) hrmv with ⟨hm, -⟩ | ⟨pre, x, post, hsplit, hid, -, -⟩
  · exact hm
  · have hx : x ∈ out up := by
      rw [nil_append] at hsplit
      rw [hsplit]
      simp
    obtain ⟨l, hl, -, hlx⟩ := h.link_of_edge hx
    exact absurd ((congrArg Prod.snd hlx).trans hid) (hindex l hl)

end

end TableInv

/-! ### Acyclicity -/

/-- A path after one more edge from `a` to `b` either avoids it, or reaches `a` and comes from
`b`. -/
theorem transGen_insert {α : Type*} {r r' : α → α → Prop} {a b : α}
    (hr : ∀ x y, r' x y → r x y ∨ x = a ∧ y = b) {x y : α} (h : Relation.TransGen r' x y) :
    Relation.TransGen r x y ∨ Relation.ReflTransGen r x a ∧ Relation.ReflTransGen r b y := by
  have hstep : ∀ {w z}, r' w z → Relation.ReflTransGen r x w →
      Relation.TransGen r x z ∨ Relation.ReflTransGen r x a ∧ Relation.ReflTransGen r b z := by
    intro w z hwz hw
    rcases hr _ _ hwz with hold | ⟨rfl, rfl⟩
    · exact .inl (Relation.TransGen.tail' hw hold)
    · exact .inr ⟨hw, Relation.ReflTransGen.refl⟩
  induction h with
  | single hxy => exact hstep hxy Relation.ReflTransGen.refl
  | tail _ hwz ih =>
    rcases ih with ih | ⟨hxa, hbw⟩
    · exact hstep hwz ih.to_reflTransGen
    · rcases hr _ _ hwz with hold | ⟨-, rfl⟩
      · exact .inr ⟨hxa, hbw.tail hold⟩
      · exact .inr ⟨hxa, Relation.ReflTransGen.refl⟩

theorem Acyclic.add (h : Acyclic links) (l : Link) (hno : ¬ Path links l.lo l.up) :
    Acyclic (links ++ [l]) := by
  intro u hu
  have hr : ∀ x y, Linked (links ++ [l]) x y → Linked links x y ∨ x = l.up ∧ y = l.lo := by
    rintro x y ⟨k, hk, rfl, rfl⟩
    rcases mem_append.mp hk with hk | hk
    · exact .inl ⟨k, hk, rfl, rfl⟩
    · rw [mem_singleton] at hk
      exact .inr ⟨congrArg Link.up hk, congrArg Link.lo hk⟩
  rcases transGen_insert hr hu with hold | ⟨hua, hbu⟩
  · exact h u hold
  · exact hno (hbu.trans hua)

theorem Acyclic.remove {links : List Link} (h : Acyclic links) (p : Link → Bool) :
    Acyclic (links.filter p) := by
  have hle : Linked (links.filter p) ≤ Linked links := by
    rintro x y ⟨l, hl, hxy⟩
    exact ⟨l, (mem_filter.mp hl).1, hxy⟩
  exact fun u hu => h u (Relation.TransGen.mono hle u u hu)

/-! ### The search answers rightly -/

/-- What a link request needs of the state for `linkcycle` to be right. A FIFO is not searched from,
so nothing may lead on from its major to the upper one. A search from a device stays in the table,
and no node without links that holds a cursor from before is at the end of two links it follows. -/
def LinkOk (s : LinkState) (up lo : Stdata) : Prop :=
  if lo.isFifo = true then ¬ Path s.links lo.major up.major
  else (∀ n, Path s.links lo.major n → n < s.mux.cdevcnt) ∧
    ∀ n, (s.mux.nodes n).outp = none → (s.mux.nodes n).startp ≠ none →
      ∀ l ∈ s.links, ∀ l' ∈ s.links, Path s.links lo.major l.up → Path s.links lo.major l'.up →
        l.lo = n → l'.lo = n → l = l'

def EventOk (s : LinkState) : Event → Prop
  | .link up lo => LinkOk s up lo
  | .unlink _ => True

def Inv (s : LinkState) : Prop := (∃ out, TableInv s out) ∧ Acyclic s.links

theorem TableInv.searchable {s : LinkState} {out : Nat → List EdgeCell} (h : TableInv s out)
    (hacyclic : Acyclic s.links) {up lo : Stdata} (hfifo : lo.isFifo = false) (hok : LinkOk s up lo) :
    Searchable s.mux out lo.major := by
  rw [LinkOk, if_neg (by simp [hfifo])] at hok
  have hreach : ∀ n, Relation.ReflTransGen (Adj out) lo.major n ↔ Path s.links lo.major n := by
    intro n
    rw [h.adj_eq]
    rfl
  refine ⟨h.chain, fun n _ => (h.ptrs n).of_map _, h.imaj, fun n hn => hok.1 n ((hreach n).mp hn),
    ?_, ?_⟩
  · rw [h.adj_eq]
    exact hacyclic
  · intro n hn hnil hcursor u u' x x' hu hu' hx hx' hxn hxn'
    have hnin : n < s.mux.cdevcnt := hok.1 n ((hreach n).mp hn)
    have houtp : (s.mux.nodes n).outp = none := by
      have hchain := h.chain n hnin
      rw [hnil] at hchain
      exact hchain.start_eq_none
    obtain ⟨l, hl, rfl, hlx⟩ := h.link_of_edge hx
    obtain ⟨l', hl', rfl, hlx'⟩ := h.link_of_edge hx'
    have hsame : l = l' := hok.2 n houtp hcursor l hl l' hl' ((hreach _).mp hu) ((hreach _).mp hu')
      ((congrArg Prod.fst hlx).trans hxn) ((congrArg Prod.fst hlx').trans hxn')
    subst hsame
    refine ⟨rfl, inj_on_of_nodup_map (h.ids_nodup l.up) hx hx' ?_⟩
    rw [← hlx, ← hlx']

/-- In a state of the invariant, a request that meets the condition is answered rightly. -/
theorem Inv.search {s : LinkState} (h : Inv s) {up lo : Stdata} (hok : LinkOk s up lo) :
    ∃ fuel m code, linkcycle fuel s.mux up lo = .returned m code ∧ SameLists s.mux m ∧
      (code = 0 ∨ code = 1) ∧ (code = 1 ↔ Path s.links lo.major up.major) := by
  obtain ⟨⟨out, htable⟩, hacyclic⟩ := h
  cases hfifo : lo.isFifo with
  | true =>
    rw [LinkOk, if_pos hfifo] at hok
    exact ⟨0, s.mux, 0, by simp [linkcycle, hfifo], SameLists.refl _, .inl rfl, by simpa using hok⟩
  | false =>
    obtain ⟨fuel, m, code, hret, hsame, hcode, hiff⟩ :=
      linkcycle_total up hfifo (htable.searchable hacyclic hfifo hok)
    refine ⟨fuel, m, code, hret, hsame, hcode, hiff.trans ?_⟩
    rw [htable.adj_eq]
    rfl

theorem Inv.returned {s : LinkState} (h : Inv s) {up lo : Stdata} (hok : LinkOk s up lo) {code : Nat}
    {m : Table} (hret : linkcycle fuel s.mux up lo = .returned m code) :
    SameLists s.mux m ∧ Inv { s with mux := m } ∧ (code = 1 ↔ Path s.links lo.major up.major) := by
  obtain ⟨_, _, _, hret', hsame, -, hiff⟩ := h.search hok
  obtain ⟨rfl, rfl⟩ := linkcycle_unique hret hret'
  obtain ⟨⟨out, htable⟩, hacyclic⟩ := h
  exact ⟨hsame, ⟨⟨out, htable.sameLists hsame⟩, hacyclic⟩, hiff⟩

theorem Inv.step {s t : LinkState} {event : Event} (h : Inv s) (hstep : Guarded Step EventOk s event t) :
    Inv t := by
  obtain ⟨hok, hstep⟩ := hstep
  cases hstep with
  | refused _ _ hret _ => exact (h.returned hok hret).2.1
  | admitted hup _ hret hindex hnew hadd =>
    obtain ⟨hsame, ⟨⟨out, htable⟩, hacyclic⟩, hiff⟩ := h.returned hok hret
    refine ⟨⟨_, htable.add (hsame.cdevcnt ▸ hup.2) hindex hnew hadd⟩, hacyclic.add _ ?_⟩
    exact fun hpath => absurd (hiff.mpr hpath) (by simp)
  | noMemory hup _ hret hindex hadd hrmv =>
    obtain ⟨hsame, ⟨⟨out, htable⟩, hacyclic⟩, -⟩ := h.returned hok hret
    rw [muxAddedge_noMemory hadd] at hrmv
    rw [htable.remove_absent (hsame.cdevcnt ▸ hup.2) hindex hrmv]
    exact ⟨⟨out, htable⟩, hacyclic⟩
  | unlink hl hrmv =>
    obtain ⟨⟨out, htable⟩, hacyclic⟩ := h
    exact ⟨htable.remove hl hrmv, hacyclic.remove _⟩

theorem Inv.initial (cdevcnt : Nat) : Inv (initial cdevcnt) := by
  refine ⟨⟨_, TableInv.initial cdevcnt⟩, fun u hu => ?_⟩
  obtain ⟨v, ⟨l, hl, -⟩, -⟩ := Relation.TransGen.head'_iff.mp hu
  exact absurd hl (not_mem_nil)

/-- In every run whose requests meet the condition, the links stay acyclic and `linkcycle` answers
every request that meets it: it returns, and returns 1 exactly when the link would close a cycle. -/
theorem linkcycle_exact_and_acyclic (cdevcnt : Nat) (events : List Event) (s : LinkState)
    (hrun : Exec (Guarded Step EventOk) (Mux.initial cdevcnt) events s) :
    Acyclic s.links ∧ ∀ up lo, LinkOk s up lo → Exact s up lo := by
  have hinv : Inv s := hrun.invariant (fun _ _ _ h hstep => h.step hstep) (Inv.initial cdevcnt)
  refine ⟨hinv.2, fun up lo hok => ?_⟩
  obtain ⟨fuel, m, code, hret, -, hcode, hiff⟩ := hinv.search hok
  exact ⟨fuel, m, code, hret, hcode, hiff⟩

theorem linkcycle_exact_and_acyclic_one_link : ∃ s,
    Exec (Guarded Step EventOk) (Mux.initial 6) [.link ⟨false, 1⟩ ⟨false, 2⟩] s ∧
      Acyclic s.links ∧ ∀ up lo, LinkOk s up lo → Exact s up lo := by
  have hok : EventOk (Mux.initial 6) (.link ⟨false, 1⟩ ⟨false, 2⟩) := by
    refine ⟨fun n hn => ?_, fun n _ hcursor => absurd rfl hcursor⟩
    rcases Relation.ReflTransGen.cases_head hn with rfl | ⟨v, ⟨l, hl, -⟩, -⟩
    · decide
    · exact absurd hl (not_mem_nil)
  have hstep := @Step.admitted (Mux.initial 6) ⟨false, 1⟩ ⟨false, 2⟩ 9 9 10 1 _ _
    ⟨rfl, by decide⟩ (by intro; decide) rfl (by decide) rfl rfl
  have hguard : Guarded Step EventOk (Mux.initial 6) (.link ⟨false, 1⟩ ⟨false, 2⟩) _ := ⟨hok, hstep⟩
  have hrun := Exec.single hguard
  exact ⟨_, hrun, linkcycle_exact_and_acyclic 6 _ _ hrun⟩

/-- A search refused in the middle of the list of major 1 leaves a cursor there. Once the links of
1 are gone and their two edges have been allocated again for the links of 4, the next search from 4
takes the cursor up, walks the list of 4 as if it were that of 1, and goes round in 1 for ever. -/
theorem linkcycle_stale_run : ∃ s,
    Exec Step (Mux.initial 6) [.link ⟨false, 1⟩ ⟨false, 2⟩, .link ⟨false, 1⟩ ⟨false, 3⟩,
      .link ⟨false, 2⟩ ⟨false, 1⟩, .unlink ⟨1, 2, 1⟩, .unlink ⟨1, 3, 2⟩,
      .link ⟨false, 4⟩ ⟨false, 1⟩, .link ⟨false, 4⟩ ⟨false, 1⟩] s ∧
    ∃ m, (∀ fuel, linkcycle (fuel + 6) s.mux ⟨false, 5⟩ ⟨false, 4⟩ = linkcycleLoop 5 fuel m 1) ∧
      linkcycleStep 5 m 1 = .next m 1 := by
  have hrun := Exec.single (@Step.admitted (Mux.initial 6) ⟨false, 1⟩ ⟨false, 2⟩ 9 9 10 1 _ _
    ⟨rfl, by decide⟩ (by intro; decide) rfl (by decide) rfl rfl)
  have hrun := hrun.snoc (@Step.admitted _ ⟨false, 1⟩ ⟨false, 3⟩ 9 9 11 2 _ _
    ⟨rfl, by decide⟩ (by intro; decide) rfl (by decide) rfl rfl)
  have hrun := hrun.snoc (@Step.refused _ ⟨false, 2⟩ ⟨false, 1⟩ 9 1 _
    ⟨rfl, by decide⟩ (by intro; decide) rfl (by decide))
  have hrun := hrun.snoc (@Step.unlink _ ⟨1, 2, 1⟩ 9 _ (by decide) rfl)
  have hrun := hrun.snoc (@Step.unlink _ ⟨1, 3, 2⟩ 9 _ (by decide) rfl)
  have hrun := hrun.snoc (@Step.admitted _ ⟨false, 4⟩ ⟨false, 1⟩ 9 9 11 1 _ _
    ⟨rfl, by decide⟩ (by intro; decide) rfl (by decide) rfl rfl)
  have hrun := hrun.snoc (@Step.admitted _ ⟨false, 4⟩ ⟨false, 1⟩ 9 9 10 2 _ _
    ⟨rfl, by decide⟩ (by intro; decide) rfl (by decide) rfl rfl)
  exact ⟨_, hrun, _, fun _ => rfl, rfl⟩

theorem linkcycle_never_returns : ∃ s,
    Exec Step (Mux.initial 6) [.link ⟨false, 1⟩ ⟨false, 2⟩, .link ⟨false, 1⟩ ⟨false, 3⟩,
      .link ⟨false, 2⟩ ⟨false, 1⟩, .unlink ⟨1, 2, 1⟩, .unlink ⟨1, 3, 2⟩,
      .link ⟨false, 4⟩ ⟨false, 1⟩, .link ⟨false, 4⟩ ⟨false, 1⟩] s ∧ ¬ Exact s ⟨false, 5⟩ ⟨false, 4⟩ := by
  obtain ⟨s, hrun, m, hunroll, hfix⟩ := linkcycle_stale_run
  refine ⟨s, hrun, ?_⟩
  rintro ⟨fuel, m', code, hret, -⟩
  have hret' : linkcycleLoop 5 fuel (muxClear s.mux) 4 = .returned m' code := hret
  have hlong : linkcycle (fuel + 6) s.mux ⟨false, 5⟩ ⟨false, 4⟩ = .returned m' code :=
    linkcycleLoop_fuel hret' (by omega)
  rw [hunroll, linkcycleLoop_stuck hfix] at hlong
  exact absurd hlong (by simp)

end Svr42.Mux
