import Svr42.QrunModel

/-! The run list, call by call. -/

namespace Svr42.Qrun
open Bool Function List

variable {Qip : Type} {s s' : Sys Qip} {cells front rest : List (Queue Qip)} {q qp : Queue Qip}
  {qip : Qip}

/-- The queues of the run list, in order. -/
structure Runlist (s : Sys Qip) (cells : List (Queue Qip)) : Prop where
  linked : Linked s.qLink s.qhead cells
  last : s.qtail = cells.getLast?
  mem : ∀ q, q ∈ cells ↔ s.inUse q.1 = true ∧ s.qenab q = true
  srvp : ∀ q ∈ cells, s.srvp q = true
  flagged : cells ≠ [] → s.qrunflag = true

/-- Only links are changed. -/
structure SameFlags (s s' : Sys Qip) : Prop where
  qenab : s'.qenab = s.qenab
  srvp : s'.srvp = s.srvp
  qrunflag : s'.qrunflag = s.qrunflag
  inUse : s'.inUse = s.inUse

theorem Runlist.ends (h : Runlist s cells) : s.qhead = none ↔ s.qtail = none := by
  rw [h.linked.start_eq, h.last, head?_eq_none_iff, getLast?_eq_none_iff]

theorem Runlist.unflag (h : Runlist s []) : Runlist { s with qrunflag := false } [] where
  linked := h.linked
  last := h.last
  mem := h.mem
  srvp := h.srvp
  flagged hne := absurd rfl hne

theorem pair_iff (q : Queue Qip) (qip : Qip) :
    q = (qip, Half.read) ∨ q = WR (qip, Half.read) ↔ q.1 = qip := by
  obtain ⟨p, half⟩ := q
  constructor
  · rintro (heq | heq)
    · exact congrArg Prod.fst heq
    · exact congrArg Prod.fst heq
  · intro heq
    cases half with
    | read => exact .inl (congrArg (·, Half.read) heq)
    | write => exact .inr (congrArg (·, Half.write) heq)

variable [DecidableEq Qip]

theorem Runlist.allocq (h : Runlist s cells) (hnew : s.inUse qip = false) (srvp : Half → Bool) :
    Runlist (allocq s qip srvp) cells := by
  have hother : ∀ q ∈ cells, q.1 ≠ qip := fun q hq heq => by
    have hin := ((h.mem q).mp hq).1
    rw [heq, hnew] at hin
    exact false_ne_true hin
  refine ⟨?_, h.last, fun q => ?_, fun q hq => ?_, h.flagged⟩
  · exact h.linked.congr fun q hq => if_neg (hother q hq)
  · by_cases heq : q.1 = qip
    · have hout : (Qrun.allocq s qip srvp).qenab q = false := if_pos heq
      rw [hout]
      exact iff_of_false (fun hq => hother q hq heq) fun hand => false_ne_true hand.2
    · have hsame : (Qrun.allocq s qip srvp).qenab q = s.qenab q := if_neg heq
      have hin : (Qrun.allocq s qip srvp).inUse q.1 = s.inUse q.1 := update_of_ne heq _ _
      rw [hsame, hin, h.mem]
  · exact (if_neg (hother q hq)).trans (h.srvp q hq)

/-- A queue with a service procedure goes to the end of the list, unless it is on the list. -/
theorem Runlist.qenable (h : Runlist s cells) (hq : s.inUse q.1 = true) :
    (qenable s q = some (s, false) ∧ (s.srvp q = true → q ∈ cells)) ∨
      ∃ s', qenable s q = some (s', true) ∧ s.srvp q = true ∧ q ∉ cells ∧
        Runlist s' (cells ++ [q]) ∧ s'.srvp = s.srvp ∧ s'.inUse = s.inUse := by
  unfold Qrun.qenable
  by_cases hsrvp : s.srvp q = false
  · rw [if_pos hsrvp]
    exact .inl ⟨rfl, fun htrue => absurd (hsrvp.symm.trans htrue) false_ne_true⟩
  rw [if_neg hsrvp]
  by_cases henab : s.qenab q = true
  · rw [if_pos henab]
    exact .inl ⟨rfl, fun _ => (h.mem q).mpr ⟨hq, henab⟩⟩
  rw [if_neg henab]
  have hout : q ∉ cells := fun hmem => henab ((h.mem q).mp hmem).2
  have hmem : ∀ p, p ∈ cells ++ [q] ↔ s.inUse p.1 = true ∧ update s.qenab q true p = true := by
    intro p
    rw [mem_append, mem_singleton]
    by_cases hp : p = q
    · subst hp
      rw [update_self]
      exact iff_of_true (.inr rfl) ⟨hq, rfl⟩
    · rw [update_of_ne hp, or_iff_left hp, h.mem]
  have hsrvps : ∀ p ∈ cells ++ [q], s.srvp p = true := by
    intro p hp
    rcases mem_append.mp hp with hp | hp
    · exact h.srvp p hp
    · rw [mem_singleton.mp hp]
      exact not_eq_false _ ▸ hsrvp
  refine .inr ?_
  cases hhead : s.qhead with
  | none =>
    have hnil : cells = [] := head?_eq_none_iff.mp (h.linked.start_eq.symm.trans hhead)
    subst hnil
    have hself : (update s.qLink q none) q = none := update_self _ _ _
    dsimp only [setEnab]
    rw [hhead]
    exact ⟨_, rfl, not_eq_false _ ▸ hsrvp, hout,
      ⟨⟨rfl, hself⟩, rfl, hmem, hsrvps, fun _ => rfl⟩, rfl, rfl⟩
  | some first =>
    have hne : cells ≠ [] := fun hnil => by
      have hfirst := h.linked.start_eq
      rw [hhead, hnil] at hfirst
      cases hfirst
    obtain ⟨front, t, hcells⟩ := (eq_nil_or_concat' cells).resolve_left hne
    subst hcells
    have htail : s.qtail = some t := h.last.trans getLast?_concat
    dsimp only [setEnab]
    rw [hhead, htail]
    have hqt : q ≠ t := fun heq => hout (heq ▸ mem_append_right _ (.head _))
    have hself : update s.qLink q none q = none := update_self _ _ _
    have hlinked : Linked (update s.qLink q none) s.qhead (front ++ [t]) :=
      h.linked.update_of_notMem hout none
    have hsnoc := hlinked.snoc hout hself
    rw [update_comm hqt] at hsnoc
    refine ⟨_, rfl, not_eq_false _ ▸ hsrvp, hout, ⟨?_, ?_, hmem, hsrvps, fun _ => rfl⟩, rfl, rfl⟩
    · rw [append_assoc, ← hhead]
      exact hsnoc
    · exact getLast?_concat.symm

/-- The first queue of the list is taken off, and its service procedure called. -/
theorem Runlist.dequeue (h : Runlist s (q :: rest)) :
    ∃ s', dequeue s = some (s', q, true) ∧ Runlist s' rest ∧ s'.srvp = s.srvp ∧ s'.inUse = s.inUse := by
  have hnext : s.qLink q = rest.head? := h.linked.2.start_eq
  have hout : q ∉ rest := (nodup_cons.mp h.linked.nodup).1
  have hsrvp : s.srvp q = true := h.srvp q (.head _)
  refine ⟨setEnab { s with qhead := s.qLink q, qtail := if s.qLink q = none then none else s.qtail }
    q false, ?_, ⟨h.linked.2, ?_, fun p => ?_, fun p hp => ?_, fun _ => ?_⟩, rfl, rfl⟩
  · rw [Qrun.dequeue, h.linked.1, ← hsrvp]
    rfl
  · cases rest with
    | nil => exact if_pos hnext
    | cons p rest =>
      have hsome : s.qLink q ≠ none := fun hnone => by
        rw [hnext] at hnone
        cases hnone
      exact (if_neg hsome).trans (h.last.trans getLast?_cons_cons)
  · by_cases hp : p = q
    · subst hp
      have hself : update s.qenab p false p = false := update_self _ _ _
      exact iff_of_false hout fun hand => false_ne_true (hself.symm.trans hand.2)
    · have hsame : update s.qenab q false p = s.qenab p := update_of_ne hp _ _
      calc p ∈ rest ↔ p ∈ q :: rest := by rw [mem_cons, or_iff_right hp]
        _ ↔ s.inUse p.1 = true ∧ s.qenab p = true := h.mem p
        _ ↔ _ := by rw [← hsame]; rfl
  · exact h.srvp p (.tail _ hp)
  · exact h.flagged (cons_ne_nil _ _)

/-! ### Queues that are detached -/

/-- `q` is linked past, `prev` being the queue before it. -/
def linkPast (s : Sys Qip) (prev : Option (Queue Qip)) (q : Queue Qip) : Sys Qip :=
  match prev with
  | some p => setLink s p (s.qLink q)
  | none => { s with qhead := s.qLink q }

def skip (s : Sys Qip) (prev : Option (Queue Qip)) (q : Queue Qip) : Sys Qip :=
  let s := linkPast s prev q
  if s.qtail = some q then { s with qtail := prev } else s

theorem unlinkLoop_cons (fuel : Nat) (s : Sys Qip) (qp : Queue Qip) (prev : Option (Queue Qip))
    (q : Queue Qip) : unlinkLoop (fuel + 1) s qp prev (some q) =
      if q = qp ∨ q = WR qp then unlinkLoop fuel (skip s prev q) qp prev ((skip s prev q).qLink q)
      else unlinkLoop fuel s qp (some q) (s.qLink q) := rfl

theorem linkPast_same (s : Sys Qip) (prev : Option (Queue Qip)) (q : Queue Qip) :
    SameFlags s (linkPast s prev q) ∧ (linkPast s prev q).qtail = s.qtail := by
  cases prev with
  | none => exact ⟨⟨rfl, rfl, rfl, rfl⟩, rfl⟩
  | some p => exact ⟨⟨rfl, rfl, rfl, rfl⟩, rfl⟩

theorem skip_flags (s : Sys Qip) (prev : Option (Queue Qip)) (q : Queue Qip) :
    SameFlags s (skip s prev q) := by
  obtain ⟨hsame, -⟩ := linkPast_same s prev q
  unfold skip
  dsimp only
  split_ifs
  · exact ⟨hsame.qenab, hsame.srvp, hsame.qrunflag, hsame.inUse⟩
  · exact hsame

/-- The list from `qhead` to `qtail`. -/
structure Ends (s : Sys Qip) (cells : List (Queue Qip)) : Prop where
  linked : Linked s.qLink s.qhead cells
  last : s.qtail = cells.getLast?

theorem linkPast_linked (h : Linked s.qLink s.qhead (front ++ q :: rest)) :
    Linked (linkPast s front.getLast? q).qLink (linkPast s front.getLast? q).qhead (front ++ rest) ∧
      (linkPast s front.getLast? q).qLink q = rest.head? := by
  have hnext : s.qLink q = rest.head? := h.drop.start_eq
  rcases eq_nil_or_concat' front with rfl | ⟨before, p, rfl⟩
  · exact ⟨h.2, hnext⟩
  have hqp : q ≠ p := fun heq => by
    have hnodup := h.nodup
    rw [heq, append_assoc] at hnodup
    exact (nodup_cons.mp (nodup_append.mp hnodup).2.1).1 (.head _)
  rw [getLast?_concat, append_assoc]
  rw [append_assoc] at h
  exact ⟨h.unlink, (update_of_ne hqp _ _).trans hnext⟩

theorem skip_ends (h : Ends s (front ++ q :: rest)) :
    Ends (skip s front.getLast? q) (front ++ rest) ∧ (skip s front.getLast? q).qLink q = rest.head? := by
  obtain ⟨hlinked, hnext⟩ := linkPast_linked h.linked
  have htail := (linkPast_same s front.getLast? q).2.trans h.last
  cases rest with
  | nil =>
    rw [getLast?_concat] at htail
    have hskip : skip s front.getLast? q =
        { linkPast s front.getLast? q with qtail := front.getLast? } := if_pos htail
    rw [hskip]
    exact ⟨⟨hlinked, congrArg getLast? (append_nil front).symm⟩, hnext⟩
  | cons p rest =>
    have hlast : (front ++ q :: p :: rest).getLast? = (front ++ p :: rest).getLast? := by
      rw [getLast?_append, getLast?_append, getLast?_cons_cons]
    have hother : (linkPast s front.getLast? q).qtail ≠ some q := fun hq => by
      have hnodup := h.linked.nodup
      have hmem := mem_of_getLast? ((getLast?_append_of_ne_nil front
        (cons_ne_nil p rest)).symm.trans (hlast.symm.trans (htail.symm.trans hq)))
      exact (nodup_cons.mp (nodup_append.mp hnodup).2.1).1 hmem
    have hskip : skip s front.getLast? q = linkPast s front.getLast? q := if_neg hother
    rw [hskip]
    exact ⟨⟨hlinked, htail.trans hlast⟩, hnext⟩

/-- The loop takes both queues off the list, wherever they are. -/
theorem unlinkLoop_returns (qip : Qip) : ∀ (rest front : List (Queue Qip)) (s : Sys Qip),
    Ends s (front ++ rest) →
      ∃ s', Returns (fun fuel => unlinkLoop fuel s (qip, .read) front.getLast? rest.head?) s' ∧
        Ends s' (front ++ rest.filter fun q => q.1 ≠ qip) ∧ SameFlags s s'
  | [], front, s, h => by
    refine ⟨s, ⟨1, fun fuel hfuel => ?_⟩, h, ⟨rfl, rfl, rfl, rfl⟩⟩
    obtain ⟨fuel, rfl⟩ : ∃ n, fuel = n + 1 := ⟨fuel - 1, by omega⟩
    rfl
  | q :: rest, front, s, h => by
    by_cases hq : q.1 = qip
    · obtain ⟨hskip, hnext⟩ := skip_ends h
      have hflags := skip_flags s front.getLast? q
      obtain ⟨s', ⟨n, hn⟩, hends, hsame⟩ := unlinkLoop_returns qip rest front _ hskip
      refine ⟨s', ⟨n + 1, fun fuel hfuel => ?_⟩, ?_, ⟨hsame.qenab.trans hflags.qenab,
        hsame.srvp.trans hflags.srvp, hsame.qrunflag.trans hflags.qrunflag,
        hsame.inUse.trans hflags.inUse⟩⟩
      · obtain ⟨fuel, rfl⟩ : ∃ n, fuel = n + 1 := ⟨fuel - 1, by omega⟩
        refine (unlinkLoop_cons fuel s (qip, .read) front.getLast? q).trans ?_
        rw [if_pos ((pair_iff q qip).mpr hq), hnext]
        exact hn fuel (by omega)
      · rwa [filter_cons_of_neg (by simpa using hq)]
    · have hnext : s.qLink q = rest.head? := h.linked.drop.start_eq
      have hends : Ends s ((front ++ [q]) ++ rest) := by rwa [append_assoc]
      obtain ⟨s', ⟨n, hn⟩, hends', hsame⟩ := unlinkLoop_returns qip rest (front ++ [q]) s hends
      refine ⟨s', ⟨n + 1, fun fuel hfuel => ?_⟩, ?_, hsame⟩
      · obtain ⟨fuel, rfl⟩ : ∃ n, fuel = n + 1 := ⟨fuel - 1, by omega⟩
        refine (unlinkLoop_cons fuel s (qip, .read) front.getLast? q).trans ?_
        have hloop := hn fuel (by omega)
        dsimp only at hloop
        rw [getLast?_concat] at hloop
        rw [if_neg (mt (pair_iff q qip).mp hq), hnext, hloop]
      · rw [filter_cons_of_pos (by simpa using hq)]
        rwa [append_assoc] at hends'

/-- The queues of the pair are not on the list any more. -/
theorem Runlist.qdetach (h : Runlist s cells) (qip : Qip) :
    ∃ s', Returns (fun fuel => qdetach fuel s (qip, .read)) s' ∧
      Runlist s' (cells.filter fun q => q.1 ≠ qip) ∧ s'.srvp = s.srvp ∧
      s'.inUse = update s.inUse qip false := by
  have hmem : ∀ s', SameFlags s s' → ∀ q, (q ∈ cells.filter fun q => q.1 ≠ qip) ↔
      (freeq s' (qip, .read)).inUse q.1 = true ∧ (freeq s' (qip, .read)).qenab q = true := by
    intro s' hsame q
    have hin : (freeq s' (qip, .read)).inUse = update s.inUse qip false := by
      rw [freeq, hsame.inUse]
    have hen : (freeq s' (qip, .read)).qenab = s.qenab := hsame.qenab
    rw [mem_filter, decide_eq_true_iff, hin, hen]
    by_cases hq : q.1 = qip
    · rw [hq, update_self]
      exact iff_of_false (fun hand => hand.2 rfl) fun hand => false_ne_true hand.1
    · rw [update_of_ne hq, h.mem]
      exact and_iff_left hq
  have hdone : ∀ s', SameFlags s s' → Ends s' (cells.filter fun q => q.1 ≠ qip) →
      Runlist (freeq s' (qip, .read)) (cells.filter fun q => q.1 ≠ qip) := by
    intro s' hsame hends
    refine ⟨hends.linked, hends.last, hmem s' hsame, fun q hq => ?_, fun hne => ?_⟩
    · exact (congrFun hsame.srvp q).trans (h.srvp q (mem_filter.mp hq).1)
    · exact hsame.qrunflag.trans (h.flagged fun hnil => hne (by rw [hnil]; rfl))
  by_cases hflag : s.qenab (qip, .read) = true ∨ s.qenab (WR (qip, .read)) = true
  · obtain ⟨s', hloop, hends, hsame⟩ := unlinkLoop_returns qip cells [] s ⟨h.linked, h.last⟩
    refine ⟨freeq s' (qip, .read), ?_, hdone s' hsame hends, hsame.srvp, ?_⟩
    · refine (hloop.map fun s => freeq s (qip, .read)).of_eq fun fuel => ?_
      rw [Qrun.qdetach, if_pos hflag, h.linked.start_eq]
      rfl
    · rw [freeq, hsame.inUse]
  have hkeep : (cells.filter fun q => q.1 ≠ qip) = cells := by
    refine filter_eq_self.mpr fun q hq => ?_
    have henab := ((h.mem q).mp hq).2
    rw [decide_eq_true_iff]
    intro heq
    rcases (pair_iff q qip).mpr heq with rfl | rfl
    · exact hflag (.inl henab)
    · exact hflag (.inr henab)
  have hsame : SameFlags s s := ⟨rfl, rfl, rfl, rfl⟩
  refine ⟨freeq s (qip, .read), ?_, hdone s hsame (by rw [hkeep]; exact ⟨h.linked, h.last⟩), rfl,
    rfl⟩
  refine (Returns.const _).of_eq fun fuel => ?_
  rw [Qrun.qdetach, if_neg hflag]
  rfl

end Svr42.Qrun
