import Svr42.QrunList

/-! Queues that are enabled are run. -/

namespace Svr42.Qrun
open Function List Option Prod

variable {Qip : Type} {u v w : World Qip} {cells cells' : List (Queue Qip)} {q : Queue Qip}
  {qip : Qip} {event : Event Qip} {pre post : List (Event Qip)}

/-- Nothing is enabled before there are queues. -/
structure Initial (w : World Qip) : Prop where
  head : w.sys.qhead = none
  tail : w.sys.qtail = none
  nobody : ∀ qip, w.sys.inUse qip = false

theorem Initial.runlist (h : Initial w) : Runlist w.sys [] where
  linked := h.head
  last := h.tail
  mem q := by
    rw [h.nobody]
    exact iff_of_false not_mem_nil fun hand => Bool.false_ne_true hand.1
  srvp q hq := absurd hq not_mem_nil
  flagged hne := absurd rfl hne

/-- From `qhead` to `qtail` are the queues that have QENAB set, each once. -/
def Listed (s : Sys Qip) : Prop :=
  ∃ cells, Linked s.qLink s.qhead cells ∧ s.qtail = cells.getLast? ∧ cells.Nodup ∧
    (s.qhead = none ↔ s.qtail = none) ∧
    (∀ q, q ∈ cells ↔ s.inUse q.1 = true ∧ s.qenab q = true) ∧
    (s.qhead ≠ none → s.qrunflag = true)

theorem Runlist.listed (h : Runlist u.sys cells) : Listed u.sys := by
  refine ⟨cells, h.linked, h.last, h.linked.nodup, h.ends, h.mem, fun hne => h.flagged fun hnil => ?_⟩
  rw [hnil] at h
  exact hne h.linked

variable [DecidableEq Qip]

/-- The run list on its own: first in, first out, but for the queues that are detached. -/
inductive Moves : List (Queue Qip) → Event Qip → List (Queue Qip) → Prop
  | put {cells : List (Queue Qip)} {q : Queue Qip} : q ∉ cells →
      Moves cells (.qenable q true) (cells ++ [q])
  | keep {cells : List (Queue Qip)} {q : Queue Qip} : Moves cells (.qenable q false) cells
  | detach {cells : List (Queue Qip)} {qip : Qip} :
      Moves cells (.qdetach qip) (cells.filter fun q => q.1 ≠ qip)
  | take {cells : List (Queue Qip)} {q : Queue Qip} : Moves (q :: cells) (.dequeue q true) cells
  | done : Moves [] .done []
  | allocq {cells : List (Queue Qip)} {qip : Qip} {srvp : Half → Bool} :
      Moves cells (.allocq qip srvp) cells
  | queuerun {cells : List (Queue Qip)} : Moves cells .queuerun cells
  | ret {cells : List (Queue Qip)} : Moves cells .ret cells

theorem step_moves (h : Runlist u.sys cells) (hstep : Step u event v) :
    ∃ cells', Moves cells event cells' ∧ Runlist v.sys cells' := by
  cases hstep with
  | @allocq qip srvp hnew => exact ⟨cells, .allocq, h.allocq hnew srvp⟩
  | @qenable q s put hq hcall =>
    obtain ⟨hnot, -⟩ | ⟨s', hs', -, hout, hlist, -⟩ := h.qenable hq
    · obtain ⟨rfl, rfl⟩ := mk.inj (some.inj (hcall.symm.trans hnot))
      exact ⟨cells, .keep, h⟩
    · obtain ⟨rfl, rfl⟩ := mk.inj (some.inj (hcall.symm.trans hs'))
      exact ⟨_, .put hout, hlist⟩
  | @qdetach qip s hq hcall =>
    obtain ⟨s', hs', hlist, -⟩ := h.qdetach qip
    obtain rfl := hcall.unique hs'
    exact ⟨_, .detach, hlist⟩
  | queuerun hpc hflag => exact ⟨cells, .queuerun, h⟩
  | @dequeue q s called hpc hcall =>
    cases cells with
    | nil =>
      rw [Qrun.dequeue, show u.sys.qhead = none from h.linked] at hcall
      cases hcall
    | cons p rest =>
      obtain ⟨s', hs', hlist, -⟩ := h.dequeue
      obtain ⟨rfl, hrest⟩ := mk.inj (some.inj (hcall.symm.trans hs'))
      obtain ⟨rfl, rfl⟩ := mk.inj hrest
      exact ⟨rest, .take, hlist⟩
  | ret hpc => exact ⟨cells, .ret, h⟩
  | done hpc hhead =>
    have hnil : cells = [] := head?_eq_none_iff.mp (h.linked.start_eq.symm.trans hhead)
    subst hnil
    exact ⟨[], .done, h.unflag⟩

theorem run_moves (h : Runlist u.sys cells) (hrun : Exec Step u post v) :
    ∃ cells', Exec Moves cells post cells' ∧ Runlist v.sys cells' := by
  induction hrun with
  | nil => exact ⟨cells, .nil cells, h⟩
  | snoc _ hstep ih =>
    obtain ⟨cells', hmoves, hlist⟩ := ih
    obtain ⟨cells'', hlast, hlist'⟩ := step_moves hlist hstep
    exact ⟨cells'', .snoc hmoves hlast, hlist'⟩

/-! ### A queue on the list -/

def starts (q : Queue Qip) : Event Qip → Bool
  | .dequeue q' called => called && q' = q
  | _ => false

omit [DecidableEq Qip] in
/-- The first queue of the list is taken. -/
def takes : Event Qip → Bool
  | .dequeue _ _ => true
  | _ => false

/-- After `post` the queue is still waiting behind fewer others, or has been run once. -/
def Waits (q : Queue Qip) (ahead : Nat) (post : List (Event Qip)) (cells : List (Queue Qip)) : Prop :=
  (post.countP (starts q) = 0 ∧ Event.done ∉ post ∧
      ∃ a b, cells = a ++ q :: b ∧ a.length + post.countP takes ≤ ahead) ∨
    (post.countP (starts q) = 1 ∧ q ∉ cells)

theorem Moves.nodup (h : Moves cells event cells') (hnodup : cells.Nodup) : cells'.Nodup := by
  cases h with
  | @put _ q hout =>
    have hone : [q].Nodup := nodup_cons.mpr ⟨not_mem_nil, nodup_nil⟩
    refine nodup_append.mpr ⟨hnodup, hone, fun a ha b hb heq => hout ?_⟩
    rwa [← mem_singleton.mp hb, ← heq]
  | detach => exact hnodup.filter _
  | take => exact (nodup_cons.mp hnodup).2
  | keep => exact hnodup
  | done => exact hnodup
  | allocq => exact hnodup
  | queuerun => exact hnodup
  | ret => exact hnodup

variable {ahead : Nat}

section

variable (h : Waits q ahead post cells) (hstart : starts q event = false)
  (htake : takes event = false) (hdone : event ≠ .done)
include h hstart htake hdone

theorem Waits.still
    (hleft : ∀ a b, cells = a ++ q :: b → ∃ a' b', cells' = a' ++ q :: b' ∧ a'.length ≤ a.length)
    (hout : q ∉ cells → q ∉ cells') : Waits q ahead (post ++ [event]) cells' := by
  have hstarts : (post ++ [event]).countP (starts q) = post.countP (starts q) := by
    rw [countP_append, countP_singleton, if_neg (by rw [hstart]; exact Bool.false_ne_true)]
    rfl
  have htakes : (post ++ [event]).countP takes = post.countP takes := by
    rw [countP_append, countP_singleton, if_neg (by rw [htake]; exact Bool.false_ne_true)]
    rfl
  rw [Waits, hstarts, htakes]
  obtain ⟨hzero, hno, a, b, hcells, hle⟩ | ⟨hone, hq⟩ := h
  · obtain ⟨a', b', hcells', hle'⟩ := hleft a b hcells
    refine .inl ⟨hzero, fun hmem => ?_, a', b', hcells', by omega⟩
    rcases mem_append.mp hmem with hmem | hmem
    · exact hno hmem
    · exact hdone (mem_singleton.mp hmem).symm
  · exact .inr ⟨hone, hout hq⟩

theorem Waits.same : Waits q ahead (post ++ [event]) cells :=
  h.still hstart htake hdone (fun a b hcells => ⟨a, b, hcells, Nat.le_refl _⟩) id

end

/-- The first queue is taken: this one, or one that it waits for. -/
theorem Waits.take {ahead : Nat} {p : Queue Qip} (h : Waits q ahead post (p :: cells))
    (hnodup : (p :: cells).Nodup) : Waits q ahead (post ++ [.dequeue p true]) cells := by
  have hp : p ∉ cells := (nodup_cons.mp hnodup).1
  have hstarts : (post ++ [Event.dequeue p true]).countP (starts q) =
      post.countP (starts q) + if p = q then 1 else 0 := by
    rw [countP_append, countP_singleton]
    by_cases hpq : p = q
    · rw [if_pos hpq, if_pos (by simp [starts, hpq])]
    · rw [if_neg hpq, if_neg (by simp [starts, hpq])]
  have htakes : (post ++ [Event.dequeue p true]).countP takes = post.countP takes + 1 := by
    rw [countP_append, countP_singleton]
    rfl
  rw [Waits, hstarts, htakes]
  obtain ⟨hzero, hno, a, b, hcells, hle⟩ | ⟨hone, hq⟩ := h
  · cases a with
    | nil =>
      obtain ⟨rfl, rfl⟩ := cons.inj hcells
      rw [if_pos rfl, hzero]
      exact Or.inr ⟨rfl, hp⟩
    | cons x a =>
      obtain ⟨rfl, rfl⟩ := cons.inj hcells
      have hpq : p ≠ q := fun heq => hp (heq ▸ mem_append_right _ (.head _))
      rw [if_neg hpq, hzero]
      rw [length_cons] at hle
      refine Or.inl ⟨rfl, fun hmem => ?_, a, b, rfl, by omega⟩
      rcases mem_append.mp hmem with hmem | hmem
      · exact hno hmem
      · cases mem_singleton.mp hmem
  · rw [mem_cons, not_or] at hq
    rw [if_neg (Ne.symm hq.1), hone]
    exact Or.inr ⟨rfl, hq.2⟩

theorem Moves.waits (h : Moves cells event cells') (hnodup : cells.Nodup) (hw : Waits q ahead post cells)
    (hdetach : event ≠ .qdetach q.1) (hput : event ≠ .qenable q true) :
    Waits q ahead (post ++ [event]) cells' := by
  cases h with
  | @put _ p hout =>
    have hpq : q ≠ p := fun heq => hput (by rw [heq])
    refine hw.still rfl rfl nofun (fun a b hcells => ?_) fun hq => ?_
    · exact ⟨a, b ++ [p], by rw [hcells, append_assoc]; rfl, Nat.le_refl _⟩
    · rw [mem_append, mem_singleton, not_or]
      exact ⟨hq, hpq⟩
  | @detach _ qip =>
    have hkeep : q.1 ≠ qip := fun heq => hdetach (by rw [heq])
    refine hw.still rfl rfl nofun (fun a b hcells => ?_) fun hq hmem => hq (mem_filter.mp hmem).1
    refine ⟨a.filter fun q => q.1 ≠ qip, b.filter fun q => q.1 ≠ qip, ?_, length_filter_le _ _⟩
    rw [hcells, filter_append, filter_cons_of_pos (by simpa using hkeep)]
  | take => exact hw.take hnodup
  | done =>
    obtain ⟨-, -, a, b, hcells, -⟩ | ⟨hone, hq⟩ := hw
    · exact absurd hcells.symm (append_ne_nil_of_right_ne_nil _ (cons_ne_nil _ _))
    · refine Or.inr ⟨?_, hq⟩
      rw [countP_append, hone]
      rfl
  | keep => exact hw.same rfl rfl nofun
  | allocq => exact hw.same rfl rfl nofun
  | queuerun => exact hw.same rfl rfl nofun
  | ret => exact hw.same rfl rfl nofun

theorem run_waits {a b : List (Queue Qip)} (hrun : Exec Moves (a ++ q :: b) post cells)
    (hnodup : (a ++ q :: b).Nodup) (hdetach : Event.qdetach q.1 ∉ post)
    (hput : Event.qenable q true ∉ post) : cells.Nodup ∧ Waits q a.length post cells := by
  induction hrun with
  | nil => exact ⟨hnodup, Or.inl ⟨rfl, not_mem_nil, a, b, rfl, Nat.le_refl _⟩⟩
  | snoc _ hstep ih =>
    rw [mem_append, mem_singleton, not_or] at hdetach hput
    obtain ⟨hnodup', hwaits⟩ := ih hdetach.1 hput.1
    exact ⟨hstep.nodup hnodup', hstep.waits hnodup' hwaits (Ne.symm hdetach.2) (Ne.symm hput.2)⟩

theorem run_nodup (hrun : Exec Moves [] pre cells) : cells.Nodup :=
  hrun.keeps List.Nodup (fun _ _ _ hnodup hstep => hstep.nodup hnodup) nodup_nil

/-- Every queue on the list has been put on it, and neither run nor detached since. -/
theorem run_puts (hrun : Exec Moves [] pre cells) (hq : q ∈ cells) :
    ∃ before after, pre = before ++ Event.qenable q true :: after ∧
      Event.qdetach q.1 ∉ after ∧ after.countP (starts q) = 0 := by
  have hmore : ∀ {pre : List (Event Qip)} {event : Event Qip},
      (∃ before after, pre = before ++ Event.qenable q true :: after ∧
        Event.qdetach q.1 ∉ after ∧ after.countP (starts q) = 0) →
      event ≠ .qdetach q.1 → starts q event = false →
      ∃ before after, pre ++ [event] = before ++ Event.qenable q true :: after ∧
        Event.qdetach q.1 ∉ after ∧ after.countP (starts q) = 0 := by
    rintro pre event ⟨before, after, rfl, hno, hzero⟩ hdetach hstart
    refine ⟨before, after ++ [event], append_assoc _ _ _, fun hmem => ?_, ?_⟩
    · rcases mem_append.mp hmem with hmem | hmem
      · exact hno hmem
      · exact hdetach (mem_singleton.mp hmem).symm
    · rw [countP_append, countP_singleton, hzero, hstart]
      rfl
  induction hrun with
  | nil => cases hq
  | snoc hbefore hstep ih =>
    cases hstep with
    | @put _ p hout =>
      by_cases hqp : q = p
      · subst hqp
        exact ⟨_, [], rfl, not_mem_nil, rfl⟩
      · rw [mem_append, mem_singleton, or_iff_left hqp] at hq
        exact hmore (ih hq) nofun rfl
    | @detach _ qip =>
      obtain ⟨hmem, hne⟩ := mem_filter.mp hq
      refine hmore (ih hmem) (fun heq => ?_) rfl
      rw [Event.qdetach.inj heq] at hne
      simp at hne
    | @take _ p =>
      have hpq : p ≠ q := fun heq =>
        (nodup_cons.mp (run_nodup hbefore)).1 (heq ▸ hq)
      exact hmore (ih (.tail _ hq)) nofun (by simp [starts, hpq])
    | done => cases hq
    | keep => exact hmore (ih hq) nofun rfl
    | allocq => exact hmore (ih hq) nofun rfl
    | queuerun => exact hmore (ih hq) nofun rfl
    | ret => exact hmore (ih hq) nofun rfl

/-! ### The run list in every run -/

/-- No null pointer is followed, and the loop of `qdetach` ends. -/
structure Answers (s : Sys Qip) : Prop where
  qenable : ∀ q, s.inUse q.1 = true → (qenable s q).isSome = true
  qdetach : ∀ qip, ∃ s', Returns (fun fuel => qdetach fuel s (qip, .read)) s'

theorem Runlist.answers (h : Runlist u.sys cells) : Answers u.sys where
  qenable q hq := by
    obtain ⟨hs', -⟩ | ⟨s', hs', -⟩ := h.qenable hq
    · rw [hs']
      rfl
    · rw [hs']
      rfl
  qdetach qip := by
    obtain ⟨s', hs', -⟩ := h.qdetach qip
    exact ⟨s', hs'⟩

/-- Since `q` was enabled in `v` its service procedure has been called once, or is yet to be: it has
been when `queuerun` is done, or has come past those that were ahead. -/
def RunsOnce (v w : World Qip) (q : Queue Qip) (post : List (Event Qip)) : Prop :=
  post.countP (starts q) = (if w.sys.qenab q = true then 0 else 1) ∧
    (Event.done ∈ post → post.countP (starts q) = 1) ∧
    ∀ a b, Linked v.sys.qLink v.sys.qhead (a ++ q :: b) → a.length < post.countP takes →
      post.countP (starts q) = 1

theorem step_inUse (hstep : Step u event v) (hdetach : event ≠ .qdetach qip)
    (hin : u.sys.inUse qip = true) (h : Runlist u.sys cells) : v.sys.inUse qip = true := by
  cases hstep with
  | @allocq other srvp hnew =>
    have hne : qip ≠ other := fun heq => by
      rw [heq, hnew] at hin
      exact Bool.false_ne_true hin
    exact (update_of_ne hne _ _).trans hin
  | @qenable q s put hq hcall =>
    obtain ⟨hnot, -⟩ | ⟨s', hs', -, -, -, -, hsame⟩ := h.qenable hq
    · obtain ⟨rfl, -⟩ := mk.inj (some.inj (hcall.symm.trans hnot))
      exact hin
    · obtain ⟨rfl, -⟩ := mk.inj (some.inj (hcall.symm.trans hs'))
      rwa [hsame]
  | @qdetach other s hq hcall =>
    obtain ⟨s', hs', -, -, hsame⟩ := h.qdetach other
    obtain rfl := hcall.unique hs'
    have hne : qip ≠ other := fun heq => hdetach (by rw [heq])
    rw [hsame]
    exact (update_of_ne hne _ _).trans hin
  | queuerun hpc hflag => exact hin
  | @dequeue q s called hpc hcall =>
    cases cells with
    | nil =>
      rw [Qrun.dequeue, show u.sys.qhead = none from h.linked] at hcall
      cases hcall
    | cons p rest =>
      obtain ⟨s', hs', -, -, hsame⟩ := h.dequeue
      obtain ⟨rfl, -⟩ := mk.inj (some.inj (hcall.symm.trans hs'))
      rwa [hsame]
  | ret hpc => exact hin
  | done hpc hhead => exact hin

theorem run_inUse (hrun : Exec Step u post v) (hdetach : Event.qdetach qip ∉ post)
    (hin : u.sys.inUse qip = true) (h : Runlist u.sys cells) : v.sys.inUse qip = true := by
  induction hrun with
  | nil => exact hin
  | snoc hbefore hstep ih =>
    rw [mem_append, mem_singleton, not_or] at hdetach
    obtain ⟨mid, -, hmid⟩ := run_moves h hbefore
    exact step_inUse hstep (Ne.symm hdetach.2) (ih hdetach.1) hmid

theorem step_listed {put : Bool} (h : Runlist u.sys cells) (hstep : Step u (.qenable q put) v)
    (hsrvp : u.sys.srvp q = true) : v.sys.inUse q.1 = true ∧ ∃ a b, Runlist v.sys (a ++ q :: b) := by
  constructor
  · cases hstep with
    | qenable hq hcall => exact step_inUse (Step.qenable hq hcall) nofun hq h
  · cases hstep with
    | qenable hq hcall =>
      obtain ⟨hnot, hon⟩ | ⟨s', hs', -, -, hlist, -⟩ := h.qenable hq
      · obtain ⟨rfl, rfl⟩ := mk.inj (some.inj (hcall.symm.trans hnot))
        obtain ⟨a, b, rfl⟩ := append_of_mem (hon hsrvp)
        exact ⟨a, b, h⟩
      · obtain ⟨rfl, rfl⟩ := mk.inj (some.inj (hcall.symm.trans hs'))
        exact ⟨cells, [], hlist⟩

theorem runs_once (h : Runlist v.sys cells) (hq : q ∈ cells) (hrun : Exec Step v post w)
    (hdetach : Event.qdetach q.1 ∉ post) (hput : Event.qenable q true ∉ post) : RunsOnce v w q post := by
  obtain ⟨cells', hmoves, hlist⟩ := run_moves h hrun
  have hin : w.sys.inUse q.1 = true := run_inUse hrun hdetach ((h.mem q).mp hq).1 h
  have hwaits : ∀ a b, cells = a ++ q :: b → Waits q a.length post cells' := by
    rintro a b rfl
    exact (run_waits hmoves h.linked.nodup hdetach hput).2
  refine ⟨?_, fun hdone => ?_, fun a b hlinked hmany => ?_⟩
  · obtain ⟨a, b, hab⟩ := append_of_mem hq
    obtain ⟨hzero, -, a', b', hcells', -⟩ | ⟨hone, hout⟩ := hwaits a b hab
    · have hon : q ∈ cells' := hcells' ▸ mem_append_right _ (.head _)
      rw [if_pos ((hlist.mem q).mp hon).2, hzero]
    · rw [if_neg fun henab => hout ((hlist.mem q).mpr ⟨hin, henab⟩), hone]
  · obtain ⟨a, b, hab⟩ := append_of_mem hq
    obtain ⟨-, hno, -⟩ | ⟨hone, -⟩ := hwaits a b hab
    · exact absurd hdone hno
    · exact hone
  · obtain ⟨-, -, a', b', -, hle⟩ | ⟨hone, -⟩ := hwaits a b (h.linked.unique hlinked)
    · omega
    · exact hone

/-- Flag and list are in step in every run, every queue that is enabled is run once unless it is
detached, and none is run that has not been enabled. -/
theorem runlist_run {w₀ : World Qip} (h₀ : Initial w₀) :
    (∀ events w, Exec Step w₀ events w → Listed w.sys ∧ Answers w.sys) ∧
    (∀ pre u q put v post w, Exec Step w₀ pre u → Step u (.qenable q put) v → Exec Step v post w →
      u.sys.srvp q = true → Event.qdetach q.1 ∉ post → Event.qenable q true ∉ post →
      RunsOnce v w q post) ∧
    ∀ pre u q called v, Exec Step w₀ pre u → Step u (.dequeue q called) v →
      called = true ∧ ∃ before after, pre = before ++ Event.qenable q true :: after ∧
        Event.qdetach q.1 ∉ after ∧ after.countP (starts q) = 0 := by
  refine ⟨fun events w hrun => ?_, fun pre u q put v post w hpre hstep hrun hsrvp hdetach hput => ?_,
    fun pre u q called v hpre hstep => ?_⟩
  · obtain ⟨cells, -, hlist⟩ := run_moves h₀.runlist hrun
    exact ⟨hlist.listed, hlist.answers⟩
  · obtain ⟨cells, -, hlist⟩ := run_moves h₀.runlist hpre
    obtain ⟨-, a, b, hv⟩ := step_listed hlist hstep hsrvp
    exact runs_once hv (mem_append_right _ (.head _)) hrun hdetach hput
  · obtain ⟨cells, hmoves, hlist⟩ := run_moves h₀.runlist hpre
    obtain ⟨cells', htake, -⟩ := step_moves hlist hstep
    cases htake with
    | take => exact ⟨rfl, run_puts hmoves (.head _)⟩

/-- One pair of queues that is not in use. -/
def boot : World Unit where
  sys :=
    { qLink := fun _ => none
      qenab := fun _ => false
      srvp := fun _ => false
      qhead := none
      qtail := none
      qrunflag := false
      inUse := fun _ => false }
  pc := .idle

def enabled : World Unit where
  sys := (qenable (allocq boot.sys () fun _ => true) ((), .read)).elim boot.sys Prod.fst
  pc := .idle

theorem runlist_run_boot : Listed enabled.sys ∧
    RunsOnce enabled { sys := (dequeue enabled.sys).elim boot.sys fst, pc := .service ((), .read) }
      ((), .read) [.queuerun, .dequeue ((), .read) true] := by
  have h₀ : Initial boot := ⟨rfl, rfl, fun _ => rfl⟩
  have hnew : Step boot (.allocq () fun _ => true)
      { boot with sys := allocq boot.sys () fun _ => true } := .allocq rfl
  have hput : Step { boot with sys := allocq boot.sys () fun _ => true }
      (.qenable ((), .read) true) enabled := .qenable rfl rfl
  have hcall : Step { enabled with pc := .loop } (.dequeue ((), .read) true)
      { sys := (dequeue enabled.sys).elim boot.sys fst, pc := .service ((), .read) } :=
    .dequeue rfl rfl
  have hrun : Exec Step enabled [.queuerun, .dequeue ((), .read) true] _ :=
    .snoc (.snoc (.nil enabled) (.queuerun rfl rfl)) hcall
  exact ⟨((runlist_run h₀).1 _ _ (.snoc (.snoc (.nil boot) hnew) hput)).1,
    (runlist_run h₀).2.1 _ _ _ _ _ _ _ (.snoc (.nil boot) hnew) hput hrun rfl (by simp) (by simp)⟩

end Svr42.Qrun
