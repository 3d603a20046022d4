import Mathlib.Algebra.Order.Group.Multiset
import Svr42.BufcallModel
import Svr42.HeapChain
import Svr42.RunExec

/-! The list of bufcall requests over whole runs. Every operation keeps it a list with its two ends;
a request leaves it when its function is called or when it is cancelled, and also when a scan puts
it off while it is alone. -/

namespace Svr42.Bufcall
open Function List Nat Option Prod

variable {s s' : Strbcalls} {pending front back : List (Nat × Request)} {sep p q : Nat}
  {r v w : Request} {cell : Strevent} {hit : Nat → Strevent → Bool} {fuel : Nat}
  {cells : Nat → Option Strevent} {start psep : Option Nat}

/-- The requests on the list, in order. -/
abbrev Events (cells : Nat → Option Strevent) (start : Option Nat) (pending : List (Nat × Request)) :
    Prop :=
  Chain cells Strevent.request Strevent.seNext start pending

/-- The list has its two ends, and the event whose function is being called is off it. -/
structure Listed (s : Strbcalls) (pending : List (Nat × Request)) : Prop where
  chain : Events s.cells s.bcHead pending
  nodup : (pending.map Prod.fst).Nodup
  tail : ∀ x, pending.getLast? = some x → s.bcTail = some x.1
  empty : pending = [] → s.scan = none → s.bcTail = none
  running : ∀ nevent count sep, s.scan = some ⟨nevent, count, some sep⟩ →
    (∃ cell, s.cells sep = some cell) ∧ sep ∉ pending.map Prod.fst

theorem nil_events (h : start = none) : Events cells start [] := by
  rw [h]
  exact Chain.nil

theorem notMem_of_none (h : Events cells start pending) (hsep : cells sep = none) :
    sep ∉ pending.map fst := by
  intro hmem
  obtain ⟨x, hx, heq⟩ := mem_map.mp hmem
  obtain ⟨cell, hcell, -⟩ := h.cell_exists hx
  rw [heq, hsep] at hcell
  cases hcell

theorem Events.link (h : Events cells start (front ++ [(q, w)]))
    (hnodup : ((front ++ [(q, w)]).map fst).Nodup) {last : Strevent} (hq : cells q = some last)
    (hp : cells p = some cell) (hr : cell.request = r) (hnext : cell.seNext = none) (hpq : p ≠ q) :
    Events (update cells q (some { last with seNext := some p })) start (front ++ [(q, w), (p, r)]) := by
  obtain ⟨last', hlast', hw⟩ := h.cell_exists (x := (q, w)) (by simp)
  have heq : last = last' := some.inj (hq.symm.trans hlast')
  refine h.splice (by simpa using hnodup) ?_ rfl ?_
  · rw [heq]
    exact hw
  · refine Chain.single ?_ hr hnext
    rw [update_of_ne hpq]
    exact hp

theorem append_ok (h : Listed s pending) (hp : s.cells p = some cell) (hr : cell.request = r)
    (hnext : cell.seNext = none) (hout : p ∉ pending.map fst)
    (hidle : ∀ nevent count, s.scan ≠ some ⟨nevent, count, some p⟩) :
    ∃ s', append s p = some s' ∧ Listed s' (pending ++ [(p, r)]) := by
  have hrunning : ∀ nevent count sep, s.scan = some ⟨nevent, count, some sep⟩ →
      sep ∉ (pending ++ [(p, r)]).map fst := by
    intro nevent count sep hscan hmem
    rw [map_append, mem_append] at hmem
    rcases hmem with hold | hnew
    · exact (h.running _ _ _ hscan).2 hold
    · rw [map_singleton, mem_singleton] at hnew
      rw [hnew] at hscan
      exact hidle nevent count hscan
  have hnodup : ((pending ++ [(p, r)]).map fst).Nodup := by
    rw [map_append, map_singleton, ← concat_eq_append]
    exact h.nodup.concat hout
  rcases eq_nil_or_concat pending with hnil | ⟨front, ⟨q, w⟩, hfront⟩
  · rw [hnil] at h hnodup hrunning ⊢
    have hhead : s.bcHead = none := h.chain.start_eq_none
    refine ⟨{ s with bcHead := some p, bcTail := some p }, by rw [append, hhead], ?_⟩
    refine ⟨Chain.single hp hr hnext, hnodup, fun x hx => ?_, fun hnil => absurd hnil (by simp),
      fun nevent count sep hscan => ⟨(h.running _ _ _ hscan).1, hrunning _ _ _ hscan⟩⟩
    rw [show x = (p, r) by simpa using hx.symm]
  rw [hfront] at h hnodup hrunning hout ⊢
  rw [concat_eq_append] at h hnodup hrunning hout ⊢
  obtain ⟨last, hlast, -⟩ := h.chain.cell_exists (x := (q, w)) (by simp)
  have htail : s.bcTail = some q := h.tail (q, w) (by simp)
  have hpq : p ≠ q := fun heq => hout (by simp [heq])
  obtain ⟨head, hhead⟩ : ∃ head, s.bcHead = some head := by
    cases hhead : s.bcHead with
    | none =>
      have hchain := h.chain
      rw [hhead] at hchain
      exact absurd hchain.eq_nil (by simp)
    | some head => exact ⟨head, rfl⟩
  refine ⟨{ s with
    cells := update s.cells q (some { last with seNext := some p })
    bcTail := some p }, by simp [append, hhead, htail, hlast], ?_⟩
  rw [append_assoc] at hnodup hrunning ⊢
  refine ⟨h.chain.link h.nodup hlast hp hr hnext hpq, hnodup, fun x hx => ?_,
    fun hnil => absurd hnil (by simp), fun nevent count sep hscan => ⟨?_, hrunning _ _ _ hscan⟩⟩
  · rw [show x = (p, r) by simpa using hx.symm]
  · obtain ⟨cell', hcell'⟩ := (h.running _ _ _ hscan).1
    by_cases heq : sep = q
    · exact ⟨_, by rw [heq]; exact update_self _ _ _⟩
    · exact ⟨cell', by rw [← hcell']; exact update_of_ne heq _ _⟩

theorem Listed.write (h : Listed s pending) (hp : s.cells p = none) (cell : Strevent) :
    Listed { s with cells := update s.cells p (some cell) } pending where
  chain := h.chain.update_of_notMem (notMem_of_none h.chain hp)
  nodup := h.nodup
  tail := h.tail
  empty := h.empty
  running nevent count sep hscan := by
    obtain ⟨⟨cell', hcell'⟩, hout⟩ := h.running _ _ _ hscan
    have hne : sep ≠ p := by
      intro heq
      rw [heq, hp] at hcell'
      cases hcell'
    exact ⟨⟨cell', by rw [← hcell']; exact update_of_ne hne _ _⟩, hout⟩

theorem register_ok (h : Listed s pending) (hp : s.cells p = none) (func arg : Nat) (size : Int) :
    ∃ s', register s p func arg size = some s' ∧ Listed s' (pending ++ [(p, ⟨func, arg, size⟩)]) := by
  have hidle : ∀ nevent count, s.scan ≠ some ⟨nevent, count, some p⟩ := by
    intro nevent count hscan
    obtain ⟨⟨cell, hcell⟩, -⟩ := h.running _ _ _ hscan
    rw [hp] at hcell
    cases hcell
  obtain ⟨s', heq, h'⟩ := append_ok (h.write hp ⟨func, arg, size, none⟩)
    (update_self _ _ _) rfl rfl (notMem_of_none h.chain hp) hidle
  refine ⟨{ s' with strbcwait := true }, ?_, ⟨h'.chain, h'.nodup, h'.tail, h'.empty, h'.running⟩⟩
  rw [register, heq]
  rfl

/-! ### Cancelling -/

/-- What comes before `p` in the loop that looks for it. -/
def before (psep : Option Nat) (front : List (Nat × Request)) : Option Nat :=
  match front.getLast? with
  | none => psep
  | some x => some x.1

theorem before_cons {x : Nat × Request} : before psep (x :: front) = before (some x.1) front := by
  unfold before
  cases front with
  | nil => rfl
  | cons y front =>
    rw [getLast?_cons_cons, getLast?_eq_some_getLast (cons_ne_nil y front)]

/-- The loop finds the first hit, or none when there is none. -/
theorem search_ok (hit : Nat → Strevent → Bool) (psep : Option Nat) (h : Events cells start pending)
    (hfuel : pending.length < fuel) : (∃ psep', search hit cells fuel psep start = some (psep', none) ∧
      ∀ x ∈ pending, ∀ cell, cells x.1 = some cell → ¬ hit x.1 cell) ∨
    ∃ front p v back cell, pending = front ++ (p, v) :: back ∧ cells p = some cell ∧ hit p cell ∧
      search hit cells fuel psep start = some (before psep front, some p) := by
  induction h generalizing fuel psep with
  | nil =>
    cases fuel with
    | zero => exact absurd hfuel (not_lt_zero _)
    | succ fuel => exact .inl ⟨psep, rfl, nofun⟩
  | @cons q cell rest hcell hrest ih =>
    cases fuel with
    | zero => exact absurd hfuel (not_lt_zero _)
    | succ fuel =>
      by_cases hhit : hit q cell
      · exact .inr ⟨[], q, _, rest, cell, rfl, hcell, hhit, by simp [search, hcell, hhit, before]⟩
      have hstep : search hit cells (fuel + 1) psep (some q) =
          search hit cells fuel (some q) cell.seNext := by
        simp [search, hcell, hhit]
      rw [hstep]
      rcases ih (some q) (lt_of_succ_lt_succ hfuel) with ⟨psep', heq, hnone⟩ | ⟨front, p, v, back,
        cell', hpending, hcell', hhit', heq⟩
      · refine .inl ⟨psep', heq, fun x hx cell' hcell' => ?_⟩
        rcases mem_cons.mp hx with hhere | hlater
        · rw [hhere] at hcell' ⊢
          rw [hcell] at hcell'
          cases hcell'
          exact hhit
        · exact hnone x hlater cell' hcell'
      · refine .inr ⟨(q, cell.request) :: front, p, v, back, cell', ?_, hcell', hhit', ?_⟩
        · rw [hpending]
          rfl
        · rw [heq, before_cons]

theorem search_mono {res : Option Nat × Option Nat} {fuel' : Nat} (hle : fuel ≤ fuel')
    (h : search hit cells fuel psep start = some res) : search hit cells fuel' psep start = some res := by
  induction fuel generalizing fuel' psep start with
  | zero => cases h
  | succ fuel ih =>
    obtain ⟨more, hmore⟩ : ∃ more, fuel' = more + 1 := ⟨fuel' - 1, by omega⟩
    rw [hmore]
    cases start with
    | none => exact h
    | some sep =>
      simp only [search] at h ⊢
      cases hcell : cells sep with
      | none =>
        rw [hcell] at h
        cases h
      | some cell =>
        rw [hcell] at h
        simp only [bind_some] at h ⊢
        by_cases hhit : hit sep cell
        · rw [if_pos hhit] at h ⊢
          exact h
        · rw [if_neg hhit] at h ⊢
          exact ih (by omega) h

theorem tail_ok (h : Listed s (front ++ (p, v) :: back)) :
    (if some p = s.bcTail then before none front else s.bcTail) =
      ((front ++ back).getLast?).map fst := by
  rcases eq_nil_or_concat back with hnil | ⟨back', x, hback⟩
  · rw [hnil] at h ⊢
    rw [h.tail (p, v) (by simp), if_pos rfl, append_nil]
    unfold before
    cases front.getLast? with
    | none => rfl
    | some x => rfl
  · rw [hback, concat_eq_append] at h ⊢
    have hnodup := h.nodup
    simp only [map_append, map_cons, nodup_append, nodup_cons] at hnodup
    have hne : p ≠ x.1 := fun heq => hnodup.2.1.1 (by simp [heq])
    have hlast : (front ++ (back' ++ [x])).getLast? = some x := by simp
    have hsame : front ++ (p, v) :: (back' ++ [x]) = (front ++ (p, v) :: back') ++ [x] := by simp
    rw [h.tail x (hsame ▸ getLast?_concat), if_neg (fun heq => hne (some.inj heq)), hlast]
    rfl

/-- Taking out the event that was found leaves a list of the others. -/
theorem unlink_ok (h : Listed s (front ++ (p, v) :: back)) (hcell : s.cells p = some cell) :
    ∃ s', unlink s (before none front) p = some s' ∧ Listed s' (front ++ back) := by
  have hnodup := h.nodup
  have hsub : (front ++ back).Sublist (front ++ (p, v) :: back) :=
    (sublist_cons_self _ _).append_left front
  have hout : p ∉ (front ++ back).map fst := by
    simp only [map_append, map_cons, nodup_append, nodup_cons] at hnodup
    rw [map_append, mem_append, not_or]
    exact ⟨fun hmem => hnodup.2.2 p hmem p (.head _) rfl, hnodup.2.1.1⟩
  have hrunning : ∀ nevent count sep, s.scan = some ⟨nevent, count, some sep⟩ →
      sep ≠ p ∧ sep ∉ (front ++ back).map fst := by
    intro nevent count sep hscan
    obtain ⟨-, hoff⟩ := h.running _ _ _ hscan
    exact ⟨fun heq => hoff (by simp [heq]), fun hmem => hoff ((hsub.map _).subset hmem)⟩
  have htail := tail_ok h
  have hlast : ∀ x, (front ++ back).getLast? = some x →
      (if some p = s.bcTail then before none front else s.bcTail) = some x.1 := by
    intro x hx
    rw [htail, hx]
    rfl
  have hempty : front ++ back = [] → s.scan = none →
      (if some p = s.bcTail then before none front else s.bcTail) = none := by
    intro hnil _
    rw [htail, hnil]
    rfl
  rcases eq_nil_or_concat front with hnil | ⟨front', ⟨q, w⟩, hfront⟩
  · -- the first event
    rw [hnil] at h hout hrunning hlast hempty hnodup hsub ⊢
    have hchain := h.chain
    cases hhead : s.bcHead with
    | none =>
      rw [hhead] at hchain
      exact absurd hchain.eq_nil (by simp)
    | some head =>
      rw [hhead] at hchain
      cases hchain with
      | cons hcell' hrest =>
        rw [hcell] at hcell'
        cases hcell'
        refine ⟨_, by rw [unlink, hcell]; rfl, ?_⟩
        refine ⟨hrest.update_of_notMem hout, (hsub.map _).nodup hnodup, hlast, hempty,
          fun nevent count sep hscan => ⟨?_, (hrunning _ _ _ hscan).2⟩⟩
        obtain ⟨cell', hcell'⟩ := (h.running _ _ _ hscan).1
        exact ⟨cell', by rw [← hcell']; exact update_of_ne (hrunning _ _ _ hscan).1 _ _⟩
  · rw [hfront, concat_eq_append] at h hout hrunning hlast hempty hnodup hsub ⊢
    obtain ⟨prev, hprev, hw⟩ := h.chain.cell_exists (x := (q, w)) (by simp)
    have hbefore : before none (front' ++ [(q, w)]) = some q := by simp [before]
    rw [hbefore] at hlast hempty ⊢
    refine ⟨_, by simp only [unlink, hcell, hprev, bind_some, map_some]; rfl, ?_⟩
    have hchain := h.chain
    have hnodup' := hnodup
    rw [append_assoc, singleton_append] at hchain hnodup'
    have hunlinked : Events (update (update s.cells q
        (some { prev with seNext := cell.seNext })) p none) s.bcHead (front' ++ (q, w) :: back) :=
      hchain.unlink hnodup' hcell hw rfl
    refine ⟨?_, (hsub.map _).nodup hnodup, hlast, hempty,
      fun nevent count sep hscan => ⟨?_, (hrunning _ _ _ hscan).2⟩⟩
    · rw [append_assoc, singleton_append]
      exact hunlinked
    · obtain ⟨cell', hcell'⟩ := (h.running _ _ _ hscan).1
      obtain ⟨hne, hoff⟩ := hrunning _ _ _ hscan
      have hneq : sep ≠ q := fun heq => hoff (by simp [heq])
      refine ⟨cell', ?_⟩
      change update (update s.cells q _) p none sep = some cell'
      rw [update_of_ne hne, update_of_ne hneq, hcell']

theorem remove_some (h : Listed s pending) (hit : Nat → Strevent → Bool) :
    ∃ fuel s' gone, remove hit fuel s = some (s', gone) ∧
      ((gone = none ∧ s' = s) ∨ ∃ front x back, gone = some x ∧ pending = front ++ x :: back ∧
        Listed s' (front ++ back)) := by
  refine ⟨pending.length + 1, ?_⟩
  rcases search_ok hit none h.chain (lt_succ_self _) with ⟨psep', heq, -⟩ |
    ⟨front, p, v, back, cell, hpending, hcell, -, heq⟩
  · exact ⟨s, none, by rw [remove, heq]; rfl, .inl ⟨rfl, rfl⟩⟩
  · rw [hpending] at h
    obtain ⟨s', hunlink, h'⟩ := unlink_ok h hcell
    obtain ⟨cell', hcell', hv⟩ := h.chain.cell_exists (x := (p, v)) (by simp)
    have hsame : cell = cell' := some.inj (hcell.symm.trans hcell')
    refine ⟨s', some (p, v), ?_, .inr ⟨front, (p, v), back, rfl, hpending, h'⟩⟩
    rw [remove, heq]
    simp only [bind_some, hcell, hunlink, map_some]
    rw [hsame, hv]

/-- However long the loop may run, it does the same once it ends. -/
theorem remove_ok {gone : Option (Nat × Request)} (h : Listed s pending)
    (hremove : remove hit fuel s = some (s', gone)) :
    (gone = none ∧ s' = s) ∨ ∃ front x back, gone = some x ∧ pending = front ++ x :: back ∧
      Listed s' (front ++ back) := by
  obtain ⟨fuel', s'', gone', hremove', hdone⟩ := remove_some h hit
  have hsame : remove hit fuel s = remove hit fuel' s := by
    unfold remove at hremove hremove' ⊢
    cases hres : search hit s.cells fuel none s.bcHead with
    | none =>
      rw [hres] at hremove
      cases hremove
    | some res =>
      cases hres' : search hit s.cells fuel' none s.bcHead with
      | none =>
        rw [hres'] at hremove'
        cases hremove'
      | some res' =>
        have hmore := search_mono (le_max_left fuel fuel') hres
        rw [search_mono (le_max_right fuel fuel') hres'] at hmore
        rw [some.inj hmore]
  rw [hsame, hremove', some.injEq, mk.injEq] at hremove
  rw [← hremove.1, ← hremove.2]
  exact hdone

/-! ### The scan -/

theorem countEvents_ok (h : Events cells start pending) (hfuel : pending.length < fuel) :
    countEvents cells fuel start = some pending.length := by
  induction h generalizing fuel with
  | nil =>
    cases fuel with
    | zero => exact absurd hfuel (not_lt_zero _)
    | succ fuel => rfl
  | cons hcell _ ih =>
    cases fuel with
    | zero => exact absurd hfuel (not_lt_zero _)
    | succ fuel =>
      rw [countEvents, hcell, bind_some, ih (lt_of_succ_lt_succ hfuel)]
      rfl

theorem scanStart_ok {count : Int} (h : Listed s pending) (heq : scanStart count fuel s = some s') :
    Listed s' pending := by
  obtain ⟨nevent, -, hs'⟩ := map_eq_some_iff.mp heq
  rw [← hs']
  exact ⟨h.chain, h.nodup, h.tail, fun _ hscan => (by cases hscan), fun _ _ _ hscan => by cases hscan⟩

theorem Listed.first (h : Listed s pending) (hhead : s.bcHead = some p) (hcell : s.cells p = some cell) :
    ∃ rest, pending = (p, cell.request) :: rest ∧ Events s.cells cell.seNext rest := by
  have hchain := h.chain
  rw [hhead] at hchain
  cases hchain with
  | cons hcell' hrest =>
    rw [hcell] at hcell'
    cases hcell'
    exact ⟨_, rfl, hrest⟩

theorem call_ok {scan : Scan} (h : Listed s ((p, r) :: back)) (hcell : s.cells p = some cell)
    (hrest : Events s.cells cell.seNext back) (hsep : scan.sep = some p) :
    Listed { s with bcHead := cell.seNext, scan := some scan } back where
  chain := hrest
  nodup := (nodup_cons.mp h.nodup).2
  tail x hx := by
    cases back with
    | nil => cases hx
    | cons y back => exact h.tail x (by rw [getLast?_cons_cons]; exact hx)
  empty _ hscan := by cases hscan
  running nevent count sep hscan := by
    cases hscan
    cases hsep
    exact ⟨⟨cell, hcell⟩, (nodup_cons.mp h.nodup).1⟩

theorem ret_ok {nevent : Nat} {count : Int} (h : Listed s pending)
    (hscan : s.scan = some ⟨nevent, count, some sep⟩) :
    Listed (sefree { s with scan := some ⟨nevent, count, none⟩ } sep) pending where
  chain := h.chain.update_of_notMem (h.running _ _ _ hscan).2
  nodup := h.nodup
  tail := h.tail
  empty _ hscan := by cases hscan
  running _ _ _ hscan := by cases hscan

theorem done_ok (h : Listed s pending) : Listed (scanEnd s) pending := by
  have hchain := h.chain
  unfold scanEnd
  split
  · rename_i head hhead
    refine ⟨hchain, h.nodup, h.tail, fun hnil _ => ?_, fun _ _ _ hscan => by cases hscan⟩
    rw [hnil, hhead] at hchain
    cases hchain.start_eq_none
  · rename_i hhead
    rw [hhead] at hchain
    rw [hchain.eq_nil]
    exact ⟨nil_events hhead, nodup_nil, fun x hx => (by cases hx), fun _ _ => rfl,
      fun _ _ _ hscan => by cases hscan⟩

/-- A request put off behind others is the last one. One that is alone is lost. -/
theorem rotate_ok (scan : Scan) (h : Listed s ((p, r) :: back))
    (hr : cell.request = r) (hrest : Events s.cells cell.seNext back) (hsep : scan.sep = none) :
    ∃ s', rotate { s with scan := some scan } p cell = some s' ∧
      Listed s' (if back = [] then [] else back ++ [(p, r)]) := by
  have hnodup := nodup_cons.mp h.nodup
  have hrunning : ∀ nevent count sep, some scan ≠ some ⟨nevent, count, some sep⟩ := by
    intro nevent count sep heq
    cases heq
    cases hsep
  rcases eq_nil_or_concat back with hnil | ⟨front, ⟨q, w⟩, hback⟩
  · rw [hnil] at h hrest ⊢
    have htail : s.bcTail = some p := h.tail (p, r) rfl
    have hnext : cell.seNext = none := hrest.start_eq_none
    refine ⟨_, by simp only [rotate, htail, Option.bind_some, update_self,
      Option.map_some]; rfl, ?_⟩
    rw [if_pos rfl]
    exact ⟨nil_events hnext, nodup_nil, fun x hx => (by cases hx), fun _ hscan => (by cases hscan),
      fun nevent count sep hscan => absurd hscan (hrunning nevent count sep)⟩
  rw [hback, concat_eq_append] at h hrest hnodup ⊢
  have hpq : p ≠ q := fun heq => hnodup.1 (by simp [heq])
  have htail : s.bcTail = some q := h.tail (q, w) (by rw [← cons_append]; exact getLast?_concat)
  obtain ⟨last, hlast, -⟩ := hrest.cell_exists (x := (q, w)) (by simp)
  have hlast' : update s.cells p (some { cell with seNext := none }) q = some last := by
    rw [update_of_ne hpq.symm, hlast]
  refine ⟨_, by simp only [rotate, htail, Option.bind_some, hlast', Option.map_some]; rfl, ?_⟩
  rw [if_neg (by simp), append_assoc, singleton_append]
  have hchain : Events (update s.cells p (some { cell with seNext := none })) cell.seNext
      (front ++ [(q, w)]) := hrest.update_of_notMem hnodup.1
  refine ⟨hchain.link hnodup.2 hlast' (update_self _ _ _) hr rfl hpq, ?_, fun x hx => ?_,
    fun _ hscan => (by cases hscan),
    fun nevent count sep hscan => absurd hscan (hrunning nevent count sep)⟩
  · have hperm : (front ++ [(q, w), (p, r)]).Perm ((p, r) :: (front ++ [(q, w)])) := by
      rw [← singleton_append (l := [(p, r)]), ← append_assoc]
      exact perm_append_singleton _ _
    exact (hperm.map fst).nodup_iff.mpr h.nodup
  · rw [show x = (p, r) by simpa using hx.symm]

/-! ### Runs -/

/-- The requests made, those whose function was called, and those cancelled, in order. -/
def Event.made : Event → Option (Nat × Request)
  | .register id r => some (id, r)
  | _ => none

def Event.called : Event → Option (Nat × Request)
  | .call id r => some (id, r)
  | _ => none

def Event.gone : Event → Option (Nat × Request)
  | .cancel gone => gone
  | _ => none

def registered (events : List Event) : List (Nat × Request) := events.filterMap Event.made

def called (events : List Event) : List (Nat × Request) := events.filterMap Event.called

def cancelled (events : List Event) : List (Nat × Request) := events.filterMap Event.gone

def Behind (s : Strbcalls) : Event → Prop
  | .retry _ _ => s.bcHead ≠ s.bcTail
  | _ => True

variable {setrun : Nat} {event : Event} {events : List Event}

theorem coe_cons_eq {x : Nat × Request} {xs : List (Nat × Request)} :
    ((x :: xs : List (Nat × Request)) : Multiset (Nat × Request)) = xs + {x} := by
  rw [← Multiset.cons_coe, ← Multiset.singleton_add, add_comm]

theorem cancel_ok {gone : Option (Nat × Request)} (h : Listed s pending)
    (hremove : remove hit fuel s = some (s', gone)) :
    ∃ pending', Listed s' pending' ∧ (Behind s (.cancel gone) →
      (pending : Multiset (Nat × Request)) + (Event.cancel gone).made.toList =
        pending' + (Event.cancel gone).called.toList + (Event.cancel gone).gone.toList) := by
  rcases remove_ok h hremove with ⟨hgone, hs'⟩ | ⟨front, x, back, hgone, hpending, h'⟩
  · rw [hgone, hs']
    exact ⟨pending, h, fun _ => by simp [Event.made, Event.called, Event.gone]⟩
  rw [hgone, hpending]
  refine ⟨front ++ back, h', fun _ => ?_⟩
  have hperm : ((front ++ x :: back : List (Nat × Request)) : Multiset (Nat × Request)) =
      (x :: (front ++ back) : List (Nat × Request)) :=
    Multiset.coe_eq_coe.mpr perm_middle
  rw [hperm, coe_cons_eq]
  simp [Event.made, Event.called, Event.gone]

/-- A step keeps the list; the requests of it are accounted for but for one put off alone. -/
theorem step_ok (h : Listed s pending) (hstep : Step setrun s event s') :
    ∃ pending', Listed s' pending' ∧ (Behind s event →
      (pending : Multiset (Nat × Request)) + event.made.toList =
        pending' + event.called.toList + event.gone.toList) := by
  cases hstep with
  | bufcall hpos hsep heq =>
    obtain ⟨s'', hsome, h'⟩ := register_ok h hsep _ _ _
    cases hsome.symm.trans heq
    exact ⟨_, h', fun _ => by simp [Event.made, Event.called, Event.gone, ← Multiset.coe_add]⟩
  | esbbcall hpos hsep heq =>
    obtain ⟨s'', hsome, h'⟩ := register_ok h hsep _ _ _
    cases hsome.symm.trans heq
    exact ⟨_, h', fun _ => by simp [Event.made, Event.called, Event.gone, ← Multiset.coe_add]⟩
  | refuse => exact ⟨pending, h, fun _ => by simp [Event.made, Event.called, Event.gone]⟩
  | unbufcall heq => exact cancel_ok h heq
  | strunbcall heq => exact cancel_ok h heq
  | kmemFree =>
    refine ⟨pending, ?_, fun _ => by simp [Event.made, Event.called, Event.gone]⟩
    unfold kmemFree
    split
    · exact ⟨h.chain, h.nodup, h.tail, h.empty, h.running⟩
    · exact h
  | scan _ _ heq =>
    exact ⟨pending, scanStart_ok h heq, fun _ => by simp [Event.made, Event.called, Event.gone]⟩
  | call hscan hhead hcell _ =>
    obtain ⟨rest, hpending, hrest⟩ := h.first hhead hcell
    rw [hpending] at h ⊢
    refine ⟨rest, call_ok h hcell hrest rfl, fun _ => ?_⟩
    rw [coe_cons_eq]
    simp [Event.made, Event.called, Event.gone]
  | ret hscan =>
    exact ⟨pending, ret_ok h hscan, fun _ => by simp [Event.made, Event.called, Event.gone]⟩
  | retry hscan hhead hcell _ heq =>
    obtain ⟨rest, hpending, hrest⟩ := h.first hhead hcell
    rw [hpending] at h ⊢
    obtain ⟨s'', hsome, h'⟩ := rotate_ok ⟨_, _, none⟩ h rfl hrest rfl
    cases hsome.symm.trans heq
    refine ⟨_, h', fun hbehind => ?_⟩
    have hne : rest ≠ [] := by
      intro hnil
      rw [hnil] at h
      exact hbehind (hhead.trans (h.tail _ rfl).symm)
    rw [if_neg hne, coe_cons_eq]
    simp [Event.made, Event.called, Event.gone, ← Multiset.coe_add]
  | done hscan _ =>
    exact ⟨pending, done_ok h, fun _ => by simp [Event.made, Event.called, Event.gone]⟩

theorem boot_listed : Listed boot [] where
  chain := Chain.nil
  nodup := nodup_nil
  tail x hx := by cases hx
  empty _ _ := rfl
  running _ _ _ hscan := by cases hscan

/-- The list is in order, and every request made is on it, has had its function called or was
cancelled, in one of these ways. -/
def Kept (s : Strbcalls) (events : List Event) : Prop :=
  ∃ pending, Listed s pending ∧ (registered events : Multiset (Nat × Request)) =
    pending + (called events : Multiset (Nat × Request)) + cancelled events

theorem run_kept (hrun : Exec (Guarded (Step setrun) Behind) boot events s) : Kept s events := by
  generalize hboot : boot = s₀ at hrun
  induction hrun with
  | nil =>
    rw [← hboot]
    exact ⟨[], boot_listed, rfl⟩
  | @snoc s₁ s₂ events event _ hstep ih =>
    obtain ⟨pending, h, haccount⟩ := ih
    obtain ⟨pending', h', hlast⟩ := step_ok h hstep.2
    refine ⟨pending', h', ?_⟩
    unfold registered called cancelled at haccount ⊢
    rw [filterMap_snoc, filterMap_snoc, filterMap_snoc, ← Multiset.coe_add, ← Multiset.coe_add,
      ← Multiset.coe_add, haccount]
    calc (pending : Multiset (Nat × Request)) + events.filterMap Event.called +
          events.filterMap Event.gone + event.made.toList
        = (pending + event.made.toList) + events.filterMap Event.called +
            events.filterMap Event.gone := by ac_rfl
      _ = pending' + (events.filterMap Event.called + event.called.toList) +
            (events.filterMap Event.gone + event.gone.toList) := by
          rw [hlast hstep.1]
          ac_rfl

/-- Every call comes to an end, and a scan that is not over has a round to make. -/
theorem calls_end (h : Listed s pending) : (∀ sep size func arg, s.cells sep = none →
      (bufcall s sep size func arg).isSome ∧ (esbbcall s sep func arg).isSome) ∧
    (∀ id, ∃ fuel, (unbufcall id fuel s).isSome) ∧
    (∀ size p, ∃ fuel, (strunbcall setrun size p fuel s).isSome) ∧
    (∀ count, ∃ fuel, (scanStart count fuel s).isSome) ∧
    ∀ nevent count, s.scan = some ⟨nevent + 1, count, none⟩ → s.bcHead ≠ none →
      ∃ id r s', Step setrun s (.call id r) s' ∨ Step setrun s (.retry id r) s' := by
  refine ⟨fun sep size func arg hsep => ?_, fun id => ?_, fun size p => ?_, fun count => ?_,
    fun nevent count hscan hhead => ?_⟩
  · obtain ⟨s', hs', -⟩ := register_ok h hsep func arg (toInt size)
    obtain ⟨s'', hs'', -⟩ := register_ok h hsep func arg (-1)
    exact ⟨isSome_of_eq_some hs', isSome_of_eq_some hs''⟩
  · obtain ⟨fuel, s', gone, heq, -⟩ := remove_some h fun sep _ => sep = id
    exact ⟨fuel, isSome_of_eq_some heq⟩
  · obtain ⟨fuel, s', gone, heq, -⟩ := remove_some h fun _ cell =>
      cell.seArg = p ∧ cell.seFunc = setrun ∧ cell.seSize = size
    exact ⟨fuel, isSome_of_eq_some heq⟩
  · refine ⟨pending.length + 1, ?_⟩
    rw [scanStart, countEvents_ok h.chain (lt_succ_self _)]
    rfl
  · obtain ⟨sep, hsep⟩ := ne_none_iff_exists'.mp hhead
    cases hpending : pending with
    | nil =>
      rw [hpending] at h
      exact absurd h.chain.start_eq_none hhead
    | cons x rest =>
      have hx : x.1 = sep := by
        have hchain := h.chain
        rw [hpending, hsep] at hchain
        cases hchain
        rfl
      obtain ⟨cell, hcell, hr⟩ := h.chain.cell_exists (x := x) (by simp [hpending])
      rw [hx] at hcell
      by_cases hle : cell.seSize ≤ count
      · exact ⟨_, _, _, .inl (Step.call hscan hsep hcell hle)⟩
      obtain ⟨rest', hrest', hchain⟩ := h.first hsep hcell
      rw [hrest'] at h
      obtain ⟨s', heq, -⟩ := rotate_ok ⟨nevent, count, none⟩ h rfl hchain rfl
      exact ⟨_, _, s', .inr (Step.retry hscan hsep hcell (not_le.mp hle) heq)⟩

/-- In every run in which no scan puts off a request that is alone on the list, the list and the
requests are kept, and every call comes to an end. -/
theorem bufcall_kept (hrun : Exec (Guarded (Step setrun) Behind) boot events s) : Kept s events ∧
    (∀ sep size func arg, s.cells sep = none →
      (bufcall s sep size func arg).isSome ∧ (esbbcall s sep func arg).isSome) ∧
    (∀ id, ∃ fuel, (unbufcall id fuel s).isSome) ∧
    (∀ size p, ∃ fuel, (strunbcall setrun size p fuel s).isSome) ∧
    (∀ count, ∃ fuel, (scanStart count fuel s).isSome) ∧
    ∀ nevent count, s.scan = some ⟨nevent + 1, count, none⟩ → s.bcHead ≠ none →
      ∃ id r s', Step setrun s (.call id r) s' ∨ Step setrun s (.retry id r) s' := by
  obtain ⟨pending, h, haccount⟩ := run_kept hrun
  exact ⟨⟨pending, h, haccount⟩, calls_end h⟩

def metEvents : List Event := [.register 1 ⟨7, 0, 100⟩, .kmemFree, .scan 4096, .call 1 ⟨7, 0, 100⟩,
  .ret, .done]

theorem bufcall_kept_met : ∃ s, Kept s metEvents := by
  have hrun : ∃ s, Exec (Guarded (Step 0) Behind) boot metEvents s :=
    ⟨_, Exec.snoc (Exec.snoc (Exec.snoc (Exec.snoc (Exec.snoc
      (Exec.single ⟨trivial, @Step.bufcall 0 _ _ 1 100 7 0 (by decide) rfl rfl⟩)
      ⟨trivial, Step.kmemFree⟩)
      ⟨trivial, @Step.scan 0 _ _ 4096 3 rfl rfl rfl⟩)
      ⟨trivial, @Step.call 0 _ 0 1 4096 ⟨7, 0, 100, none⟩ rfl rfl rfl (by decide)⟩)
      ⟨trivial, Step.ret rfl⟩)
      ⟨trivial, Step.done rfl (.inr rfl)⟩⟩
  obtain ⟨s, hrun⟩ := hrun
  exact ⟨s, (bufcall_kept hrun).1⟩

def lostEvents : List Event := [.register 1 ⟨7, 0, 100⟩, .kmemFree, .scan 50, .retry 1 ⟨7, 0, 100⟩,
  .done]

/-- It is no longer on the list then. -/
theorem lone_request_lost : ∃ s, Exec (Step 0) boot lostEvents s ∧ s.bcHead = none ∧
    ¬ Kept s lostEvents := by
  refine ⟨_, Exec.snoc (Exec.snoc (Exec.snoc (Exec.snoc
    (Exec.single (@Step.bufcall 0 _ _ 1 100 7 0 (by decide) rfl rfl))
    Step.kmemFree)
    (@Step.scan 0 _ _ 50 3 rfl rfl rfl))
    (@Step.retry 0 _ _ 0 1 50 ⟨7, 0, 100, none⟩ rfl rfl rfl (by decide) rfl))
    (Step.done rfl (.inl rfl)), rfl, ?_⟩
  intro hkept
  obtain ⟨pending, h, haccount⟩ := hkept
  have hnil : pending = [] := Chain.eq_nil h.chain
  rw [hnil] at haccount
  exact absurd haccount (by decide)

end Svr42.Bufcall
