import Svr42.SlpQueues

/-! What `wakeprocs`, `wake_oneproc`, `unsleep` and `setrun` do to the sleep queues, and to the
processes on them. -/

namespace Svr42.Slp
open Function List

open Disp

variable {Ptr : Type} {s t u : Sys Ptr} {n i : Nat} {sl queues queues' queues'' : Nat → List Ptr}
  {pp rp : Ptr} {front back cells : List Ptr} {chan : Chan} {prmpt : Bool} {off off' : Ptr → Prop}

/-- The processes of `off` have been taken off the queue `i`, and those of them that were asleep
have been put on their dispatcher queues. -/
structure Woke (i : Nat) (off : Ptr → Prop) (s t : Sys Ptr) (queues queues' : Nat → List Ptr) :
    Prop where
  gone : ∀ pp, off pp → t.pWchan pp = 0
  kept : ∀ pp, ¬ off pp → t.pWchan pp = s.pWchan pp
  roused : ∀ pp, off pp → s.stat pp = .ssleep → t.stat pp = .srun ∧ ∃ j, pp ∈ queues' j
  stat : ∀ pp, (off pp → s.stat pp ≠ .ssleep) → t.stat pp = s.stat pp
  flag : t.flag = s.flag
  runout : t.runout = s.runout
  others : ∀ j, j ≠ i → t.sleepq j = s.sleepq j
  subset : ∀ j, queues j ⊆ queues' j

theorem Woke.refl (s : Sys Ptr) (queues : Nat → List Ptr) : Woke i (fun _ => False) s s queues queues :=
  ⟨fun _ hno => hno.elim, fun _ _ => rfl, fun _ hno => hno.elim, fun _ _ => rfl, rfl, rfl,
    fun _ _ => rfl, fun _ _ hpp => hpp⟩

theorem Woke.congr (h : Woke i off s t queues queues') (hoff : ∀ pp, off' pp ↔ off pp) :
    Woke i off' s t queues queues' := by
  obtain rfl : off' = off := funext fun pp => propext (hoff pp)
  exact h

theorem Woke.trans (h : Woke i off s t queues queues') (h' : Woke i off' t u queues' queues'')
    (hapart : ∀ pp, off pp → ¬ off' pp) : Woke i (fun pp => off pp ∨ off' pp) s u queues queues'' where
  gone pp hpp := by
    rcases hpp with hpp | hpp
    · exact (h'.kept pp (hapart pp hpp)).trans (h.gone pp hpp)
    · exact h'.gone pp hpp
  kept pp hpp := by
    obtain ⟨hno, hno'⟩ := not_or.mp hpp
    exact (h'.kept pp hno').trans (h.kept pp hno)
  roused pp hpp hstat := by
    by_cases hold : off pp
    · obtain ⟨hrun, j, hj⟩ := h.roused pp hold hstat
      refine ⟨?_, j, h'.subset j hj⟩
      rw [h'.stat pp fun hoff' => absurd hoff' (hapart pp hold), hrun]
    · have hsame := h.stat pp fun hoff => absurd hoff hold
      exact h'.roused pp (hpp.resolve_left hold) (hsame.trans hstat)
  stat pp hpp := by
    have hsame := h.stat pp fun hoff => hpp (.inl hoff)
    rw [h'.stat pp fun hoff' => hsame ▸ hpp (.inr hoff'), hsame]
  flag := h'.flag.trans h.flag
  runout := h'.runout.trans h.runout
  others j hj := (h'.others j hj).trans (h.others j hj)
  subset j _ hpp := h'.subset j (h.subset j hpp)

/-- The fields of the dispatcher that its queues depend on. -/
structure SameLists (d d' : Dispatcher Ptr) : Prop where
  proc : d'.proc = d.proc
  dispq : d'.dispq = d.dispq
  map : d'.dqactmap = d.dqactmap
  total : d'.srunprocs = d.srunprocs
  max : d'.maxrunpri = d.maxrunpri

variable {d : Dispatcher Ptr}

theorem Held.setDisp (h : Held s sl) (hd : d.proc = s.disp.proc) : Held (s.setDisp d) sl := by
  refine h.congr (fun pp _ => ?_) (fun _ => rfl) rfl
  change (d.proc pp).pLink = (s.disp.proc pp).pLink
  rw [hd]

theorem stat_setDisp (hd : d.proc = s.disp.proc) : (s.setDisp d).stat = s.stat := by
  funext pp
  change (d.proc pp).pStat = (s.disp.proc pp).pStat
  rw [hd]

theorem kept_setDisp (hd : d.proc = s.disp.proc) : Kept s (s.setDisp d) := by
  refine ⟨rfl, ?_, rfl, rfl⟩
  funext pp
  change (d.proc pp).pFlag = (s.disp.proc pp).pFlag
  rw [hd]

theorem Woke.same_wchan (h : Woke i (· = pp) s t queues queues') (hpp : pp ∉ cells) :
    ∀ q ∈ cells, t.pWchan q = s.pWchan q :=
  fun q hq => h.kept q fun heq => hpp (heq ▸ hq)

def Rings (s : Sys Ptr) (chan : Chan) (pp : Ptr) : Prop :=
  s.pWchan pp = chan ∧ s.stat pp = .ssleep ∧ wantsSched s pp = true

theorem wants_congr (hflag : t.flag = s.flag) (hrunout : t.runout = s.runout) (pp : Ptr) :
    wantsSched t pp = wantsSched s pp := by
  rw [wantsSched, wantsSched, hflag, hrunout]

theorem Woke.rings (h : Woke i (· = pp) s t queues queues') (hpp : pp ∉ cells) :
    (∃ q ∈ cells, Rings t chan q) ↔ ∃ q ∈ cells, Rings s chan q := by
  refine exists_congr fun q => and_congr_right fun hq => ?_
  have hne : q ≠ pp := ne_of_mem_of_not_mem hq hpp
  rw [Rings, Rings, h.same_wchan hpp q hq, h.stat q (fun heq => absurd heq hne),
    wants_congr h.flag h.runout]

/-- The loop of `wakeprocs` has gone through `cells`, which are behind `front`. -/
structure Woken (n i : Nat) (chan : Chan) (sl queues : Nat → List Ptr) (front cells : List Ptr)
    (s t : Sys Ptr) (queues' : Nat → List Ptr) : Prop where
  ready : Ready n t queues'
  held : Held t (update sl i (front ++ cells.filter fun q => s.pWchan q ≠ chan))
  woke : Woke i (fun q => q ∈ cells ∧ s.pWchan q = chan) s t queues queues'

theorem Woken.nil (h : Ready n s queues) (hs : Held s sl) (hi : sl i = front) :
    Woken n i chan sl queues front [] s s queues where
  ready := h
  held := by
    rw [filter_nil, append_nil, ← hi, update_eq_self]
    exact hs
  woke := (Woke.refl s queues).congr fun _ => iff_of_false (fun hno => not_mem_nil hno.1) id

theorem Woken.cons (hwoke : Woke i (· = pp) s t queues queues') (hpp : pp ∉ cells)
    (hchan : s.pWchan pp = chan)
    (h : Woken n i chan (update sl i (front ++ cells)) queues' front cells t u queues'') :
    Woken n i chan sl queues front (pp :: cells) s u queues'' where
  ready := h.ready
  held := by
    have hfilter : cells.filter (fun q => t.pWchan q ≠ chan) =
        (pp :: cells).filter fun q => s.pWchan q ≠ chan := by
      rw [filter_cons_of_neg (by simpa using hchan)]
      exact filter_congr fun q hq => by rw [hwoke.same_wchan hpp q hq]
    have hheld := h.held
    rwa [update_idem, hfilter] at hheld
  woke := by
    refine (hwoke.trans h.woke fun q hq hrest => hpp (hq ▸ hrest.1)).congr fun q => ?_
    constructor
    · rintro ⟨hmem, hq⟩
      rcases mem_cons.mp hmem with heq | hrest
      · exact .inl heq
      · exact .inr ⟨hrest, (hwoke.same_wchan hpp q hrest).trans hq⟩
    · rintro (rfl | ⟨hrest, hq⟩)
      · exact ⟨.head _, hchan⟩
      · exact ⟨.tail _ hrest, (hwoke.same_wchan hpp q hrest).symm.trans hq⟩

theorem Woken.skip (hchan : s.pWchan pp ≠ chan)
    (h : Woken n i chan sl queues (front ++ [pp]) cells s t queues') :
    Woken n i chan sl queues front (pp :: cells) s t queues' where
  ready := h.ready
  held := by
    have hheld := h.held
    rwa [append_assoc, singleton_append,
      ← filter_cons_of_pos (p := fun q => decide (s.pWchan q ≠ chan)) (by simpa using hchan)]
      at hheld
  woke := by
    refine h.woke.congr fun q => and_congr_left fun hq => ?_
    refine ⟨fun hmem => (mem_cons.mp hmem).resolve_left fun heq => hchan (heq ▸ hq), .tail pp⟩

theorem Held.not_mem_rest (h : Held s sl) (hi : sl i = front ++ pp :: cells) : pp ∉ cells := by
  have hnodup := (h.linked i).nodup
  rw [hi] at hnodup
  exact fun hmem => (nodup_middle.mp hnodup).notMem (mem_append_right _ hmem)

/-- The loop of `wake_oneproc` has taken the processes of `passed` that wait on `chan` off, which
were stopped, and has woken `woken`, behind which are `later`. -/
structure WokenOne (n i : Nat) (chan : Chan) (sl queues : Nat → List Ptr)
    (front passed later : List Ptr) (woken : Option Ptr) (s t : Sys Ptr)
    (queues' : Nat → List Ptr) : Prop where
  ready : Ready n t queues'
  queued : Queued t (update sl i
    (front ++ ((passed.filter fun q => s.pWchan q ≠ chan) ++ later)))
  woke : Woke i (fun q => (q ∈ passed ∧ s.pWchan q = chan) ∨ woken = some q) s t queues queues'
  stopped : ∀ q ∈ passed, s.pWchan q = chan → s.stat q ≠ .ssleep
  first : ∀ pp, woken = some pp → s.pWchan pp = chan ∧ s.stat pp = .ssleep
  whole : woken = none → later = []

theorem WokenOne.nil (h : Ready n s queues) (hs : Queued s sl) (hi : sl i = front) :
    WokenOne n i chan sl queues front [] [] none s s queues where
  ready := h
  queued := by
    rw [filter_nil, append_nil, append_nil, ← hi, update_eq_self]
    exact hs
  woke := (Woke.refl s queues).congr fun q =>
    iff_of_false (fun hno => hno.elim (fun hmem => not_mem_nil hmem.1) fun heq => by cases heq) id
  stopped q hq := absurd hq not_mem_nil
  first pp hpp := by cases hpp
  whole _ := rfl

theorem WokenOne.found (hwoke : Woke i (· = pp) s t queues queues') (hready : Ready n t queues')
    (hqueued : Queued t (update sl i (front ++ cells))) (hchan : s.pWchan pp = chan)
    (hsleep : s.stat pp = .ssleep) :
    WokenOne n i chan sl queues front [] cells (some pp) s t queues' where
  ready := hready
  queued := hqueued
  woke := hwoke.congr fun q => by
    rw [Option.some_inj]
    exact ⟨fun h => (h.resolve_left fun hno => not_mem_nil hno.1).symm, fun h => .inr h.symm⟩
  stopped q hq := absurd hq not_mem_nil
  first q hq := by
    obtain rfl := Option.some.inj hq
    exact ⟨hchan, hsleep⟩
  whole hno := by cases hno

variable {passed later : List Ptr} {woken : Option Ptr}

/-- It is stopped: it is taken off, and the loop goes on. -/
theorem WokenOne.cons (hwoke : Woke i (· = pp) s t queues queues')
    (hpp : pp ∉ passed ++ (woken.toList ++ later)) (hchan : s.pWchan pp = chan)
    (hstop : s.stat pp ≠ .ssleep)
    (h : WokenOne n i chan (update sl i (front ++ cells)) queues' front passed later woken
      t u queues'') : WokenOne n i chan sl queues front (pp :: passed) later woken s u queues'' := by
  have hpassed : pp ∉ passed := fun hmem => hpp (mem_append_left _ hmem)
  have hwoken : woken ≠ some pp := fun heq => hpp (by simp [heq])
  have hsame : ∀ q, q ≠ pp → t.stat q = s.stat q := fun q hq =>
    hwoke.stat q fun heq => absurd heq hq
  refine ⟨h.ready, ?_, ?_, ?_, fun q hq => ?_, h.whole⟩
  · have hfilter : passed.filter (fun q => t.pWchan q ≠ chan) =
        (pp :: passed).filter fun q => s.pWchan q ≠ chan := by
      rw [filter_cons_of_neg (by simpa using hchan)]
      exact filter_congr fun q hq => by rw [hwoke.same_wchan hpassed q hq]
    have hqueued := h.queued
    rwa [update_idem, hfilter] at hqueued
  · have hapart : ∀ q, q = pp → ¬((q ∈ passed ∧ t.pWchan q = chan) ∨ woken = some q) := by
      rintro q rfl (hmem | heq)
      · exact hpassed hmem.1
      · exact hwoken heq
    refine (hwoke.trans h.woke hapart).congr fun q => ?_
    constructor
    · rintro (⟨hmem, hq⟩ | heq)
      · rcases mem_cons.mp hmem with hfirst | hrest
        · exact .inl hfirst
        · exact .inr (.inl ⟨hrest, (hwoke.same_wchan hpassed q hrest).trans hq⟩)
      · exact .inr (.inr heq)
    · rintro (rfl | ⟨hrest, hq⟩ | heq)
      · exact .inl ⟨.head _, hchan⟩
      · exact .inl ⟨.tail _ hrest, (hwoke.same_wchan hpassed q hrest).symm.trans hq⟩
      · exact .inr heq
  · intro q hq hqchan
    rcases mem_cons.mp hq with rfl | hrest
    · exact hstop
    · rw [← hsame q (ne_of_mem_of_not_mem hrest hpassed)]
      exact h.stopped q hrest ((hwoke.same_wchan hpassed q hrest).trans hqchan)
  · have hne : q ≠ pp := fun heq => hwoken (heq ▸ hq)
    obtain ⟨hqchan, hqstat⟩ := h.first q hq
    exact ⟨(hwoke.kept q hne).symm.trans hqchan, (hsame q hne).symm.trans hqstat⟩

theorem WokenOne.skip (hchan : s.pWchan pp ≠ chan)
    (h : WokenOne n i chan sl queues (front ++ [pp]) passed later woken s t queues') :
    WokenOne n i chan sl queues front (pp :: passed) later woken s t queues' where
  ready := h.ready
  queued := by
    have hfilter : (pp :: passed).filter (fun q => s.pWchan q ≠ chan) =
        pp :: passed.filter fun q => s.pWchan q ≠ chan :=
      filter_cons_of_pos (by simpa using hchan)
    have hqueued := h.queued
    rw [append_assoc, singleton_append] at hqueued
    rwa [hfilter, cons_append]
  woke := by
    refine h.woke.congr fun q => or_congr_left (and_congr_left fun hq => ?_)
    exact ⟨fun hmem => (mem_cons.mp hmem).resolve_left fun heq => hchan (heq ▸ hq), .tail pp⟩
  stopped q hq hqchan :=
    h.stopped q ((mem_cons.mp hq).resolve_left fun heq => hchan (heq ▸ hqchan)) hqchan
  first := h.first
  whole := h.whole

def WaitsOn (s : Sys Ptr) (chan : Chan) (pp : Ptr) : Prop := s.pWchan pp = chan ∧ chan ≠ 0

theorem Held.waitsOn (h : Held s sl) (pp : Ptr) :
    WaitsOn s chan pp ↔ pp ∈ sl (sqhash chan) ∧ s.pWchan pp = chan := by
  rw [h.waits, WaitsOn]
  constructor
  · rintro ⟨rfl, hne⟩
    exact ⟨⟨hne, rfl⟩, rfl⟩
  · rintro ⟨⟨hne, -⟩, rfl⟩
    exact ⟨rfl, hne⟩

theorem Held.length_lt [Fintype Ptr] (h : Held s sl) (i : Nat) : (sl i).length < rounds Ptr :=
  Nat.lt_succ_of_le (h.linked i).nodup.length_le_card

/-! ### The tail pointer -/

theorem sleepq_setLast (i j : Nat) (last : Option Ptr) :
    ((setLast s i last).sleepq j).sqFirst = (s.sleepq j).sqFirst := by
  by_cases hj : j = i
  · simp [setLast, setSleepq, hj]
  · simp [setLast, setSleepq, hj]

theorem Ready.setLast (h : Ready n s queues) (i : Nat) (last : Option Ptr) :
    Ready n (setLast s i last) queues :=
  ⟨h.consistent, h.pri, h.awake, h.asleep⟩

theorem Held.setLast (h : Held s sl) (i : Nat) (last : Option Ptr) : Held (setLast s i last) sl :=
  h.congr (fun _ _ => rfl) (fun j => sleepq_setLast i j last) rfl

theorem Woke.setLast (h : Woke i off s t queues queues') (last : Option Ptr) :
    Woke i off s (setLast t i last) queues queues' :=
  { h with others := fun j hj => (update_of_ne hj _ _).trans (h.others j hj) }

theorem Held.queued (h : Held t (update sl i cells))
    (hlast : ∀ j, j ≠ i → (t.sleepq j).sqLast = (sl j).getLast?) :
    Queued (Slp.setLast t i cells.getLast?) (update sl i cells) where
  toHeld := h.setLast i _
  last j := by
    by_cases hj : j = i
    · simp [Slp.setLast, setSleepq, hj]
    · simpa [Slp.setLast, setSleepq, hj] using hlast j hj

section Calls

theorem Ready.setDisp (h : Ready n s queues) (hd : SameLists s.disp d) :
    Ready n (s.setDisp d) queues where
  consistent := h.consistent.frame hd.proc hd.dispq hd.map hd.total hd.max
  pri pp := by
    change (d.proc pp).pPri < n
    rw [hd.proc]
    exact h.pri pp
  awake i pp hpp := by
    change s.pWchan pp = 0 ∧ (d.proc pp).pStat = .srun
    rw [hd.proc]
    exact h.awake i pp hpp
  asleep pp hpp := by
    change (d.proc pp).pStat = .ssleep ∨ (d.proc pp).pStat = .sstop
    rw [hd.proc]
    exact h.asleep pp hpp

variable [DecidableEq Ptr]

/-- `t` is `s` with `pp` on its dispatcher queue. -/
structure Roused (n : Nat) (sl queues : Nat → List Ptr) (pp : Ptr) (s t : Sys Ptr) : Prop where
  held : Held t sl
  ready : Ready n t (enqueued s queues pp)
  kept : Kept s t
  stat : t.stat = update s.stat pp .srun

theorem roused_ready (h : Ready n s queues) (hs : Held s sl) (hpp : ∀ i, pp ∉ queues i)
    (hw : s.pWchan pp = 0) : Roused n sl queues pp s (ready s pp) :=
  ⟨hs.ready h hw, h.ready hpp hw, kept_ready s pp, stat_ready s pp⟩

theorem Roused.setDisp (h : Roused n sl queues pp s t) (hd : SameLists t.disp d) :
    Roused n sl queues pp s (t.setDisp d) :=
  ⟨h.held.setDisp hd.proc, h.ready.setDisp hd, h.kept.trans (kept_setDisp hd.proc),
    (stat_setDisp hd.proc).trans h.stat⟩

theorem roused_rouse (h : Ready n s queues) (hs : Held s sl) (hpp : ∀ i, pp ∉ queues i)
    (hw : s.pWchan pp = 0) (prmpt : Bool) : Roused n sl queues pp s (rouse s pp prmpt) := by
  have hcount : SameLists s.disp { s.disp with npwakecnt := s.disp.npwakecnt + 1 } :=
    ⟨rfl, rfl, rfl, rfl, rfl⟩
  have hready : Roused n sl queues pp s (ready (if prmpt then s
      else s.setDisp { s.disp with npwakecnt := s.disp.npwakecnt + 1 }) pp) := by
    cases prmpt with
    | true => exact roused_ready h hs hpp hw
    | false =>
      have hlater := roused_ready (h.setDisp hcount) (hs.setDisp rfl) hpp hw
      exact ⟨hlater.held, hlater.ready, (kept_setDisp hcount.proc).trans hlater.kept, hlater.stat⟩
  unfold rouse
  dsimp only
  generalize ready (if prmpt then s
    else s.setDisp { s.disp with npwakecnt := s.disp.npwakecnt + 1 }) pp = t at hready ⊢
  split_ifs
  · exact hready
  · exact hready.setDisp ⟨rfl, rfl, rfl, rfl, rfl⟩
  · exact hready

/-- `t` is `s` with `pp` off the queue `i`. -/
structure TakenOff (i : Nat) (pp : Ptr) (s t : Sys Ptr) : Prop where
  wchan : t.pWchan = update s.pWchan pp 0
  stat : t.stat = s.stat
  flag : t.flag = s.flag
  runout : t.runout = s.runout
  others : ∀ j, j ≠ i → t.sleepq j = s.sleepq j

theorem takenOff_takeOff (i : Nat) (rp : Option Ptr) (pp : Ptr) : TakenOff i pp s (takeOff s i rp pp) :=
  ⟨wchan_takeOff i rp pp, stat_takeOff i rp pp, flag_takeOff i rp pp, runout_takeOff i rp pp,
    fun _ hj => sleepq_takeOff hj rp pp⟩

section

variable (h : TakenOff i pp s t)
include h

theorem TakenOff.setLast (last : Option Ptr) : TakenOff i pp s (setLast t i last) :=
  ⟨h.wchan, h.stat, h.flag, h.runout, fun j hj => (update_of_ne hj _ _).trans (h.others j hj)⟩

theorem TakenOff.self : t.pWchan pp = 0 := by
  rw [h.wchan, update_self]

theorem TakenOff.woke (hstat : s.stat pp ≠ .ssleep) : Woke i (· = pp) s t queues queues where
  gone q hq := hq ▸ h.self
  kept q hq := by rw [h.wchan, update_of_ne hq]
  roused q hq hsleep := absurd (hq ▸ hsleep) hstat
  stat q _ := congrFun h.stat q
  flag := h.flag
  runout := h.runout
  others := h.others
  subset _ _ hq := hq

theorem TakenOff.roused (hsleep : s.stat pp = .ssleep)
    (hr : Roused n sl queues pp t u) : Woke i (· = pp) s u queues (enqueued t queues pp) where
  gone q hq := by rw [hr.kept.wchan, hq, h.self]
  kept q hq := by rw [hr.kept.wchan, h.wchan, update_of_ne hq]
  roused q hq _ := by
    rw [hr.stat, hq]
    exact ⟨update_self _ _ _, enqueued_self queues⟩
  stat q hq := by
    have hne : q ≠ pp := fun heq => hq heq (heq ▸ hsleep)
    rw [hr.stat, h.stat, update_of_ne hne]
  flag := hr.kept.flag.trans h.flag
  runout := hr.kept.runout.trans h.runout
  others j hj := by rw [hr.kept.sleepq, h.others j hj]
  subset := enqueued_subset queues

end

/-! ### The loops -/

/-- What `wakeLoop` returns: `runsched` once it was set or a process that was woken rings. -/
theorem wakeLoop_spec {fuel : Nat} (chan : Chan) (prmpt runsched : Bool) (h : Ready n s queues)
    (hs : Held s sl) (hi : sl i = front ++ cells) (hfuel : cells.length < fuel) :
    ∃ t queues' runsched', wakeLoop i chan prmpt fuel front.getLast? runsched s =
        some (t, (front ++ cells.filter fun q => s.pWchan q ≠ chan).getLast?, runsched') ∧
      Woken n i chan sl queues front cells s t queues' ∧
      (runsched' = true ↔ runsched = true ∨ ∃ q ∈ cells, Rings s chan q) := by
  induction cells generalizing front s sl queues runsched fuel with
  | nil =>
    obtain ⟨fuel, rfl⟩ : ∃ k, fuel = k + 1 := ⟨fuel - 1, by omega⟩
    refine ⟨s, queues, runsched, ?_, Woken.nil h hs (hi.trans (append_nil front)), by simp⟩
    rw [wakeLoop, hs.plink_eq hi, filter_nil, append_nil]
    rfl
  | cons pp cells ih =>
    obtain ⟨fuel, rfl⟩ : ∃ k, fuel = k + 1 := ⟨fuel - 1, by omega⟩
    have hless : cells.length < fuel := by
      rw [length_cons] at hfuel
      omega
    have hrest := hs.not_mem_rest hi
    have hplink : plink s i front.getLast? = some pp := hs.plink_eq hi
    have hself := update_self i (front ++ cells) sl
    rw [wakeLoop, hplink]
    dsimp only
    by_cases hchan : s.pWchan pp = chan
    · have hfilter : (pp :: cells).filter (fun q => s.pWchan q ≠ chan) =
          cells.filter fun q => s.pWchan q ≠ chan :=
        filter_cons_of_neg (by simpa using hchan)
      have hready := h.takeOff hs hi
      have hheld := hs.takeOff hi
      have htaken : TakenOff i pp s (takeOff s i front.getLast? pp) := takenOff_takeOff i _ pp
      rw [if_pos hchan, hfilter, htaken.stat]
      by_cases hsleep : s.stat pp = .ssleep
      · have hrouse := roused_rouse hready hheld (h.off (hs.mem_split hi).1) htaken.self prmpt
        have hwoke := htaken.roused hsleep hrouse
        obtain ⟨t, queues', runsched', hloop, hdone, hflag⟩ := ih
          (runsched || wantsSched (rouse (takeOff s i front.getLast? pp) pp prmpt) pp)
          hrouse.ready hrouse.held hself hless
        refine ⟨t, queues', runsched', ?_, hdone.cons hwoke hrest hchan, ?_⟩
        · rw [if_pos hsleep, hloop, filter_congr fun q hq => by
            rw [hwoke.same_wchan hrest q hq]]
        · rw [hflag, hwoke.rings hrest, Bool.or_eq_true, exists_mem_cons_iff,
            wants_congr hwoke.flag hwoke.runout, Rings, or_assoc]
          simp only [hchan, hsleep, true_and]
      · have hwoke : Woke i (· = pp) s (takeOff s i front.getLast? pp) queues queues :=
          htaken.woke hsleep
        obtain ⟨t, queues', runsched', hloop, hdone, hflag⟩ := ih runsched hready hheld hself hless
        refine ⟨t, queues', runsched', ?_, hdone.cons hwoke hrest hchan, ?_⟩
        · rw [if_neg hsleep, hloop, filter_congr fun q hq => by
            rw [hwoke.same_wchan hrest q hq]]
        · rw [hflag, hwoke.rings hrest, exists_mem_cons_iff, Rings]
          simp only [hsleep, false_and, and_false, false_or]
    · have hfilter : (pp :: cells).filter (fun q => s.pWchan q ≠ chan) =
          pp :: cells.filter fun q => s.pWchan q ≠ chan :=
        filter_cons_of_pos (by simpa using hchan)
      obtain ⟨t, queues', runsched', hloop, hdone, hflag⟩ :=
        ih runsched h hs (hi.trans (append_cons front pp cells)) hless
      rw [getLast?_append, getLast?_singleton, append_assoc] at hloop
      refine ⟨t, queues', runsched', ?_, hdone.skip hchan, ?_⟩
      · rw [if_neg hchan, hfilter]
        exact hloop
      · rw [hflag, exists_mem_cons_iff, Rings]
        simp only [hchan, false_and, false_or]

/-! ### The calls -/

/-- The tail pointer moves when the last one on the queue is taken off. -/
theorem takeOne_spec (h : Ready n s queues) (hs : Queued s sl) (hi : sl i = front ++ pp :: back) :
    ∃ t, (if plink (takeOff s i front.getLast? pp) i front.getLast? = none then
        setLast (takeOff s i front.getLast? pp) i front.getLast?
      else takeOff s i front.getLast? pp) = t ∧ Ready n t queues ∧
      Queued t (update sl i (front ++ back)) ∧ TakenOff i pp s t := by
  have hready := h.takeOff hs.toHeld hi
  have hheld := hs.toHeld.takeOff hi
  have hself := update_self i (front ++ back) sl
  have htaken : TakenOff i pp s (takeOff s i front.getLast? pp) := takenOff_takeOff i _ pp
  have hother : ∀ j, j ≠ i → ((takeOff s i front.getLast? pp).sleepq j).sqLast = (sl j).getLast? := by
    intro j hj
    rw [htaken.others j hj]
    exact hs.last j
  refine ⟨_, rfl, ?_⟩
  rw [hheld.plink_eq hself]
  cases back with
  | nil =>
    rw [append_nil] at hheld ⊢
    rw [if_pos head?_nil]
    exact ⟨hready.setLast _ _, hheld.queued hother, htaken.setLast _⟩
  | cons q back =>
    rw [if_neg (by simp)]
    refine ⟨hready, ⟨hheld, fun j => ?_⟩, htaken⟩
    by_cases hj : j = i
    · subst hj
      have hlast : ((takeOff s j front.getLast? pp).sleepq j).sqLast = (s.sleepq j).sqLast := by
        cases front.getLast? with
        | none => simp [takeOff, setPlink, setSleepq, setWchan]
        | some rp => rfl
      rw [hlast, hs.last, hself, hi]
      simp [getLast?_append]
    · rw [update_of_ne hj]
      exact hother j hj

theorem oneLoop_spec {fuel : Nat} (chan : Chan) (prmpt : Bool) (h : Ready n s queues) (hs : Queued s sl)
    (hi : sl i = front ++ cells) (hfuel : cells.length < fuel) : ∃ t queues' runsched passed woken later,
      oneLoop i chan prmpt fuel front.getLast? s = some (t, runsched) ∧
      cells = passed ++ (woken.toList ++ later) ∧
      WokenOne n i chan sl queues front passed later woken s t queues' ∧
      (runsched = true ↔ ∃ pp, woken = some pp ∧ wantsSched s pp = true) := by
  induction cells generalizing front s sl queues fuel with
  | nil =>
    obtain ⟨fuel, rfl⟩ : ∃ j, fuel = j + 1 := ⟨fuel - 1, by omega⟩
    refine ⟨s, queues, false, [], none, [], ?_, rfl,
      WokenOne.nil h hs (hi.trans (append_nil front)), by simp⟩
    rw [oneLoop, hs.toHeld.plink_eq hi]
    rfl
  | cons pp cells ih =>
    obtain ⟨fuel, rfl⟩ : ∃ j, fuel = j + 1 := ⟨fuel - 1, by omega⟩
    have hless : cells.length < fuel := by
      rw [length_cons] at hfuel
      omega
    have hrest := hs.toHeld.not_mem_rest hi
    have hplink : plink s i front.getLast? = some pp := hs.toHeld.plink_eq hi
    have hself := update_self i (front ++ cells) sl
    rw [oneLoop, hplink]
    dsimp only
    by_cases hchan : s.pWchan pp = chan
    · obtain ⟨t, ht, hready, hqueued, htaken⟩ := takeOne_spec h hs hi
      rw [if_pos hchan, ht, htaken.stat]
      by_cases hsleep : s.stat pp = .ssleep
      · have hrouse := roused_rouse hready hqueued.toHeld (h.off (hs.toHeld.mem_split hi).1)
          htaken.self prmpt
        have hwoke := htaken.roused hsleep hrouse
        have hlast : Queued (rouse t pp prmpt) (update sl i (front ++ cells)) :=
          ⟨hrouse.held, fun j => by rw [hrouse.kept.sleepq]; exact hqueued.last j⟩
        refine ⟨_, _, _, [], some pp, cells, by rw [if_pos hsleep], rfl,
          WokenOne.found hwoke hrouse.ready hlast hchan hsleep, ?_⟩
        rw [wants_congr hwoke.flag hwoke.runout]
        simp
      · have hwoke : Woke i (· = pp) s t queues queues := htaken.woke hsleep
        obtain ⟨u, queues', runsched, passed, woken, later, hloop, hcells, hdone, hflag⟩ :=
          ih hready hqueued hself hless
        refine ⟨u, queues', runsched, pp :: passed, woken, later, by rw [if_neg hsleep, hloop],
          by rw [hcells, cons_append], hdone.cons hwoke (hcells ▸ hrest) hchan hsleep, ?_⟩
        rw [hflag]
        simp only [wants_congr hwoke.flag hwoke.runout]
    · obtain ⟨t, queues', runsched, passed, woken, later, hloop, hcells, hdone, hflag⟩ :=
        ih h hs (hi.trans (append_cons front pp cells)) hless
      rw [getLast?_append, getLast?_singleton] at hloop
      refine ⟨t, queues', runsched, pp :: passed, woken, later, ?_, by rw [hcells, cons_append],
        hdone.skip hchan, hflag⟩
      rw [if_neg hchan]
      exact hloop

variable [Fintype Ptr] {sched : Sys Ptr → Option (Sys Ptr)} {k : Kernel Ptr}

theorem wakeBody_spec (h : Ready n s queues) (hs : Queued s sl) (chan : Chan) (prmpt : Bool) :
    ∃ t queues' runsched, wakeBody sched s chan prmpt = runSched sched runsched t ∧
      Ready n t queues' ∧
      Queued t (update sl (sqhash chan) ((sl (sqhash chan)).filter fun q => s.pWchan q ≠ chan)) ∧
      Woke (sqhash chan) (WaitsOn s chan) s t queues queues' ∧
      (runsched = true ↔ ∃ q, WaitsOn s chan q ∧ Rings s chan q) := by
  have hempty : sl (sqhash chan) = [] ++ sl (sqhash chan) := rfl
  obtain ⟨t, queues', runsched, hloop, hdone, hflag⟩ := wakeLoop_spec chan prmpt false h
    hs.toHeld hempty (hs.toHeld.length_lt (sqhash chan))
  have hheld := hdone.held
  rw [nil_append] at hloop hheld
  have hwoke := hdone.woke.congr fun q => hs.toHeld.waitsOn q
  have hlast : ∀ j, j ≠ sqhash chan → (t.sleepq j).sqLast = (sl j).getLast? := by
    intro j hj
    rw [hwoke.others j hj]
    exact hs.last j
  refine ⟨_, queues', runsched, ?_, hdone.ready.setLast _ _, hheld.queued hlast, hwoke.setLast _, ?_⟩
  · change (wakeLoop _ chan prmpt _ (getLast? []) false s).bind _ = _
    rw [hloop]
    rfl
  · rw [hflag]
    simp only [Bool.false_eq_true, false_or]
    refine exists_congr fun q => ?_
    rw [hs.toHeld.waitsOn]
    exact ⟨fun ⟨hq, hr⟩ => ⟨⟨hq, hr.1⟩, hr⟩, fun ⟨hq, hr⟩ => ⟨hq.1, hr⟩⟩

/-- `pp` is off its sleep queue, and nothing else has changed. -/
structure Unslept (n : Nat) (sl queues : Nat → List Ptr) (pp : Ptr) (s t : Sys Ptr) : Prop where
  ready : Ready n t queues
  queued : Queued t fun i => (sl i).erase pp
  wchan : t.pWchan = update s.pWchan pp 0
  stat : t.stat = s.stat
  flag : t.flag = s.flag
  runout : t.runout = s.runout

theorem unsleep_spec (h : Ready n s queues) (hs : Queued s sl) (pp : Ptr) :
    ∃ t, unsleep s pp = some t ∧ Unslept n sl queues pp s t := by
  by_cases hw : s.pWchan pp = 0
  · have hnot : ∀ i, pp ∉ sl i := fun i hmem => ((hs.waits i pp).mp hmem).1 hw
    refine ⟨s, if_pos hw, h, ?_, ?_, rfl, rfl, rfl⟩
    · simpa only [erase_of_not_mem (hnot _)] using hs
    · rw [← hw, update_eq_self]
  generalize hidx : sqhash (s.pWchan pp) = i
  have hmem : pp ∈ sl i := (hs.waits i pp).mpr ⟨hw, hidx⟩
  obtain ⟨front, back, hfront, hi, herase⟩ := exists_erase_eq hmem
  have hlinked := hs.linked i
  rw [hi] at hlinked
  have hshort : front.length < Fintype.card Ptr := by
    have hle := hlinked.nodup.length_le_card
    rw [length_append, length_cons] at hle
    omega
  have hfind : findFrom s.disp.link (fun rp => rp = pp) (Fintype.card Ptr) none
      (s.sleepq i).sqFirst = some (front.getLast?.or none, pp) :=
    findFrom_some hlinked (fun q hq => ne_of_mem_of_not_mem hq hfront) rfl hshort
  rw [Option.or_none] at hfind
  -- the tail pointer moves back if `pp` was the last one
  have hlast : (if s.disp.link pp = none then front.getLast? else (s.sleepq i).sqLast) =
      (front ++ back).getLast? := by
    rw [hlinked.drop.start_eq, hs.last i, hi]
    cases back with
    | nil => simp
    | cons q back => simp [getLast?_append]
  have hqueues : (fun j => (sl j).erase pp) = update sl i (front ++ back) := by
    funext j
    by_cases hj : j = i
    · rw [hj, update_self, herase]
    · rw [update_of_ne hj]
      exact erase_of_not_mem fun hmem' => hj (hs.toHeld.apart hmem hmem')
  have hother : ∀ j, j ≠ i → ((takeOff s i front.getLast? pp).sleepq j).sqLast = (sl j).getLast? := by
    intro j hj
    rw [sleepq_takeOff hj]
    exact hs.last j
  have hqueued := (hs.toHeld.takeOff hi).queued hother
  refine ⟨setLast (takeOff s i front.getLast? pp) i (front ++ back).getLast?, ?_,
    (h.takeOff hs.toHeld hi).setLast _ _, ?_, wchan_takeOff i _ pp, stat_takeOff i _ pp,
    flag_takeOff i _ pp, runout_takeOff i _ pp⟩
  · rw [unsleep, if_neg hw, hidx]
    dsimp only
    rw [hfind, Option.map_some]
    rw [hlast]
    cases front.getLast? with
    | none => rfl
    | some q => rfl
  · rw [hqueues]
    exact hqueued

end Calls

end Svr42.Slp
