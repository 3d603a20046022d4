import Svr42.SlpWakeups

/-! Runs in which processes sleep, are woken and are set running. -/

namespace Svr42.Slp
open Function List Option

open Disp

variable {Ptr : Type} {s t u : Sys Ptr} {n i : Nat} {sl queues queues' : Nat → List Ptr}
  {pp rp : Ptr} {chan : Chan} {k : Kernel Ptr}

def Sound (k : Kernel Ptr) (n : Nat) (s : Sys Ptr) : Prop :=
  s.stat k.procSched ≠ .sstop ∧ ∃ sl queues, Ready n s queues ∧ Queued s sl

theorem Sound.runout (h : Sound k n s) (r : Int) : Sound k n { s with runout := r } := by
  obtain ⟨hstop, sl, queues, hready, hqueued⟩ := h
  exact ⟨hstop, sl, queues, ⟨hready.consistent, hready.pri, hready.awake, hready.asleep⟩,
    ⟨⟨hqueued.linked, hqueued.waits⟩, hqueued.last⟩⟩

theorem Ready.idle (h : Ready n s queues) (hw : s.stat pp ≠ .ssleep) (hstop : s.stat pp ≠ .sstop) :
    s.pWchan pp = 0 := by
  by_contra hno
  exact (h.asleep pp hno).elim hw hstop

theorem Ready.stopped (h : Ready n s queues) (stopped : Ptr → Stopped) :
    Ready n { s with stopped := stopped } queues :=
  ⟨h.consistent, h.pri, h.awake, h.asleep⟩

theorem Queued.stopped (h : Queued s sl) (stopped : Ptr → Stopped) :
    Queued { s with stopped := stopped } sl :=
  ⟨⟨h.linked, h.waits⟩, h.last⟩

variable {off : Ptr → Prop}

theorem Woke.not_stopped (h : Woke i off s t queues queues') (hstop : s.stat pp ≠ .sstop) :
    t.stat pp ≠ .sstop := by
  by_cases hoff : off pp ∧ s.stat pp = .ssleep
  · rw [(h.roused pp hoff.1 hoff.2).1]
    decide
  · rw [h.stat pp fun hpp hsleep => hoff ⟨hpp, hsleep⟩]
    exact hstop

theorem Ready.setSleepq (h : Ready n s queues) (i : Nat) (first last : Option Ptr) :
    Ready n (setSleepq s i first last) queues :=
  ⟨h.consistent, h.pri, h.awake, h.asleep⟩

/-- Where the processes wait, once those of `off` have been woken, and the swapper too if `rung`. -/
structure Awoken (k : Kernel Ptr) (off : Ptr → Prop) (rung : Prop) (s u : Sys Ptr)
    (queues' : Nat → List Ptr) : Prop where
  gone : ∀ pp, off pp → u.pWchan pp = 0
  roused : ∀ pp, off pp → s.stat pp = .ssleep → u.stat pp = .srun ∧ ∃ i, pp ∈ queues' i
  stopped : ∀ pp, off pp → s.stat pp = .sstop → u.stat pp = .sstop
  others : ∀ pp, ¬ off pp → (rung → pp ≠ k.procSched) →
    u.pWchan pp = s.pWchan pp ∧ u.stat pp = s.stat pp
  swapper : rung → u.pWchan k.procSched = 0 ∧ u.stat k.procSched = .srun

theorem Awoken.swapper_runs {rung : Prop} (h : Awoken k off rung s u queues')
    (hstop : s.stat k.procSched ≠ .sstop) (hoff : off k.procSched → s.stat k.procSched = .ssleep) :
    u.stat k.procSched ≠ .sstop := by
  by_cases hr : rung
  · rw [(h.swapper hr).2]
    decide
  by_cases hwoken : off k.procSched
  · rw [(h.roused _ hwoken (hoff hwoken)).1]
    decide
  · rw [(h.others _ hwoken fun hrung => absurd hrung hr).2]
    exact hstop

variable [DecidableEq Ptr]

theorem Roused.queued (h : Roused n sl queues pp s t) (hs : Queued s sl) : Queued t sl :=
  ⟨h.held, fun i => by rw [h.kept.sleepq]; exact hs.last i⟩

theorem Roused.sound (h : Roused n sl queues pp s t) (hs : Queued s sl)
    (hstop : s.stat k.procSched ≠ .sstop) : Sound k n t := by
  refine ⟨?_, sl, _, h.ready, h.queued hs⟩
  rw [h.stat]
  by_cases heq : k.procSched = pp
  · rw [heq, update_self]
    decide
  · rwa [update_of_ne heq]

/-! ### `sleep` -/

theorem Ready.fallAsleep (h : Ready n s queues) (hpp : ∀ i, pp ∉ queues i) (chan : Chan) :
    Ready n (setWchan (setStat s pp .ssleep) pp chan) queues := by
  have hset : Ready n (setStat s pp .ssleep) queues := h.setProc hpp (h.pri pp) fun _ => .inl rfl
  refine ⟨hset.consistent, hset.pri, fun i rp hrp => ?_, fun rp hrp => ?_⟩
  · have hne : rp ≠ pp := ne_of_mem_of_not_mem hrp (hpp i)
    refine ⟨?_, (hset.awake i rp hrp).2⟩
    change update s.pWchan pp chan rp = 0
    rw [update_of_ne hne]
    exact (hset.awake i rp hrp).1
  · by_cases heq : rp = pp
    · refine .inl ?_
      change (setStat s pp .ssleep).stat rp = .ssleep
      rw [heq, setStat, stat_setProc, update_self]
    · change update s.pWchan pp chan rp ≠ 0 at hrp
      rw [update_of_ne heq] at hrp
      exact hset.asleep rp hrp

theorem Ready.setLink (h : Ready n s queues) (hpp : ∀ i, pp ∉ queues i) (link : Option Ptr) :
    Ready n (setLink s pp link) queues :=
  h.setProc hpp (h.pri pp) (h.asleep pp)

theorem link_setLink (link : Option Ptr) : (setLink s pp link).disp.link = update s.disp.link pp link :=
  link_setProc _

theorem stat_setLink (link : Option Ptr) : (setLink s pp link).stat = s.stat :=
  (stat_setProc _).trans (update_eq_self pp s.stat)

/-- The process that has fallen asleep is on the queue of its channel, and on no other. -/
theorem waits_sleepOn (hs : Held s sl) (hw : s.pWchan pp = 0) (hchan : chan ≠ 0) (j : Nat) (rp : Ptr) :
    rp ∈ update sl (sqhash chan) (sl (sqhash chan) ++ [pp]) j ↔
      update s.pWchan pp chan rp ≠ 0 ∧ sqhash (update s.pWchan pp chan rp) = j := by
  have hnot : pp ∉ sl j := fun hmem => ((hs.waits j pp).mp hmem).1 hw
  by_cases hrp : rp = pp
  · rw [hrp, update_self]
    by_cases hj : j = sqhash chan
    · rw [hj, update_self]
      exact iff_of_true (mem_append_right _ (.head _)) ⟨hchan, rfl⟩
    · rw [update_of_ne hj]
      exact iff_of_false hnot fun hno => hj hno.2.symm
  · rw [update_of_ne hrp, ← hs.waits j rp]
    by_cases hj : j = sqhash chan
    · rw [hj, update_self]
      simp [hrp]
    · rw [update_of_ne hj]

theorem sleepOn_empty (h : (s.sleepq (sqhash chan)).sqFirst = none) :
    sleepOn s pp chan = some (setLink (setSleepq (setWchan (setStat s pp .ssleep) pp chan)
      (sqhash chan) (some pp) (some pp)) pp none) := by
  have hfirst : ((setWchan (setStat s pp .ssleep) pp chan).sleepq (sqhash chan)).sqFirst = none := h
  simp only [sleepOn, hfirst]

theorem sleepOn_behind {first last : Ptr} (h : s.sleepq (sqhash chan) = ⟨some first, some last⟩) :
    sleepOn s pp chan = some (setLink (setSleepq (setLink (setWchan (setStat s pp .ssleep) pp chan)
      last (some pp)) (sqhash chan) (some first) (some pp)) pp none) := by
  have hqueue : (setWchan (setStat s pp .ssleep) pp chan).sleepq (sqhash chan) =
      ⟨some first, some last⟩ := h
  simp only [sleepOn, hqueue]

theorem sleepOn_spec (h : Ready n s queues) (hs : Queued s sl) (hpp : ∀ i, pp ∉ queues i)
    (hw : s.pWchan pp = 0) (hchan : chan ≠ 0) : ∃ t, sleepOn s pp chan = some t ∧ Ready n t queues ∧
      Queued t (update sl (sqhash chan) (sl (sqhash chan) ++ [pp])) ∧
      t.stat = update s.stat pp .ssleep := by
  have hready := h.fallAsleep hpp chan
  have hwaits := waits_sleepOn hs.toHeld hw hchan
  have hlink : (setWchan (setStat s pp .ssleep) pp chan).disp.link = s.disp.link := link_setStat _
  have hstat : (setWchan (setStat s pp .ssleep) pp chan).stat =
      update s.stat pp .ssleep := stat_setProc _
  have hnot : ∀ j, pp ∉ sl j := fun j hmem => ((hs.waits j pp).mp hmem).1 hw
  have hlinked := hs.linked (sqhash chan)
  have hfirst := hlinked.start_eq
  have hlast := hs.last (sqhash chan)
  rcases eq_nil_or_concat (sl (sqhash chan)) with hnil | ⟨front, last, hcells⟩
  · -- the first on its queue
    rw [hnil] at hfirst
    refine ⟨_, sleepOn_empty hfirst, (hready.setSleepq _ _ _).setLink hpp none,
      ⟨⟨fun j => ?_, hwaits⟩, fun j => ?_⟩, (stat_setLink _).trans hstat⟩
    · rw [link_setLink]
      change Linked (update (setWchan (setStat s pp .ssleep) pp chan).disp.link pp none)
        (update s.sleepq (sqhash chan) ⟨some pp, some pp⟩ j).sqFirst _
      rw [hlink]
      by_cases hj : j = sqhash chan
      · rw [hj, update_self, update_self, hnil]
        exact ⟨rfl, update_self _ _ _⟩
      · rw [update_of_ne hj, update_of_ne hj]
        exact (hs.linked j).update_of_notMem (hnot j) _
    · change (update s.sleepq (sqhash chan) ⟨some pp, some pp⟩ j).sqLast = _
      by_cases hj : j = sqhash chan
      · rw [hj, update_self, update_self, hnil]
        rfl
      · rw [update_of_ne hj, update_of_ne hj]
        exact hs.last j
  · rw [concat_eq_append] at hcells
    rw [hcells, getLast?_append, getLast?_singleton] at hlast
    rw [hcells] at hfirst hlinked
    obtain ⟨first, hhead⟩ : ∃ first, (front ++ [last]).head? = some first := by
      cases front with
      | nil => exact ⟨last, rfl⟩
      | cons first rest => exact ⟨first, rfl⟩
    have hqueue : s.sleepq (sqhash chan) = ⟨some first, some last⟩ := by
      rw [← hfirst.trans hhead, ← show (s.sleepq (sqhash chan)).sqLast = some last from hlast]
    have hmem : last ∈ sl (sqhash chan) := hcells ▸ mem_append_right _ (.head _)
    have hne : last ≠ pp := fun heq => hnot _ (heq ▸ hmem)
    have hoff : ∀ i, last ∉ queues i := h.off ((hs.waits _ last).mp hmem).1
    refine ⟨_, sleepOn_behind hqueue, ((hready.setLink hoff _).setSleepq _ _ _).setLink hpp none,
      ⟨⟨fun j => ?_, hwaits⟩, fun j => ?_⟩,
      (stat_setLink _).trans ((stat_setLink _).trans hstat)⟩
    · rw [link_setLink]
      change Linked (update (setLink (setWchan (setStat s pp .ssleep) pp chan) last
        (some pp)).disp.link pp none)
        (update s.sleepq (sqhash chan) ⟨some first, some pp⟩ j).sqFirst _
      rw [link_setLink, hlink, update_comm hne]
      by_cases hj : j = sqhash chan
      · rw [hj, update_self, update_self, hcells, append_assoc]
        have hpp' : pp ∉ front ++ [last] := hcells ▸ hnot _
        have hsnoc := (hlinked.update_of_notMem hpp' none).snoc hpp' (update_self _ _ _)
        rwa [hfirst.trans hhead] at hsnoc
      · rw [update_of_ne hj, update_of_ne hj]
        have happart : last ∉ sl j := fun hin => hj (hs.apart hmem hin)
        exact ((hs.linked j).update_of_notMem (hnot j) _).update_of_notMem happart _
    · change (update s.sleepq (sqhash chan) ⟨some first, some pp⟩ j).sqLast = _
      by_cases hj : j = sqhash chan
      · rw [hj, update_self, update_self, getLast?_append]
        rfl
      · rw [update_of_ne hj, update_of_ne hj]
        exact hs.last j

/-! ### `setrun` -/

variable {sched : Sys Ptr → Option (Sys Ptr)}

/-- `setrun` once the process is off its sleep queue: it is on its dispatcher queue, and the swapper
is called if it waits to hear of it. -/
theorem setRunning_spec (h : Ready n s queues) (hs : Queued s sl) (hpp : ∀ i, pp ∉ queues i)
    (hw : s.pWchan pp = 0) : ∃ t, Roused n sl queues pp s t ∧ (setRunning sched s pp = some t ∨
      0 < s.runout ∧ setRunning sched s pp = sched { t with runout := 0 }) := by
  let stop := { s.stopped pp with pWhystop := 0, pWhatstop := 0 }
  let s₁ : Sys Ptr := { s with stopped := update s.stopped pp stop }
  have hroused : Roused n sl queues pp s (ready s₁ pp) := by
    have hready : Ready n s₁ queues := ⟨h.consistent, h.pri, h.awake, h.asleep⟩
    have hheld : Held s₁ sl := ⟨hs.linked, hs.waits⟩
    have hr := roused_ready hready hheld hpp hw
    exact ⟨hr.held, hr.ready, ⟨hr.kept.wchan, hr.kept.flag, hr.kept.sleepq, hr.kept.runout⟩, hr.stat⟩
  have hrunout : (ready s₁ pp).runout = s.runout := rfl
  unfold setRunning
  dsimp only
  rw [hrunout]
  split_ifs with hload hout hpri
  · exact ⟨ready s₁ pp, hroused, .inr ⟨hout, rfl⟩⟩
  · exact ⟨ready s₁ pp, hroused, .inl rfl⟩
  · refine ⟨_, ?_, .inl rfl⟩
    exact hroused.setDisp ⟨rfl, rfl, rfl, rfl, rfl⟩
  · exact ⟨ready s₁ pp, hroused, .inl rfl⟩

variable {sched' : Sys Ptr → Option (Sys Ptr)}

theorem flag_setPlink (i : Nat) (link rp : Option Ptr) : (setPlink s i link rp).flag = s.flag := by
  cases rp with
  | none => rfl
  | some rp => exact (flag_setProc _).trans (update_eq_self rp s.flag)

theorem flag_rouse (s : Sys Ptr) (pp : Ptr) (prmpt : Bool) : (rouse s pp prmpt).flag = s.flag := by
  have hfirst : (if prmpt then s else
      s.setDisp { s.disp with npwakecnt := s.disp.npwakecnt + 1 }).flag = s.flag := by
    split_ifs
    · rfl
    · exact (kept_setDisp rfl).flag
  unfold rouse
  dsimp only
  generalize (if prmpt then s else
    s.setDisp { s.disp with npwakecnt := s.disp.npwakecnt + 1 }) = u at hfirst ⊢
  have hready : (ready u pp).flag = s.flag := (kept_ready u pp).flag.trans hfirst
  split_ifs
  · exact hready
  · exact (kept_setDisp rfl).flag.trans hready
  · exact hready

variable {prmpt runsched : Bool}

theorem flag_wakeLoop {fuel : Nat} {rp : Option Ptr} {r : Sys Ptr × Option Ptr × Bool}
    (hr : wakeLoop i chan prmpt fuel rp runsched s = some r) : r.1.flag = s.flag := by
  induction fuel generalizing rp s runsched with
  | zero => cases hr
  | succ fuel ih =>
    unfold wakeLoop at hr
    cases hlink : plink s i rp with
    | none =>
      rw [hlink] at hr
      rw [← some.inj hr]
    | some pp =>
      rw [hlink] at hr
      dsimp only at hr
      split_ifs at hr
      · exact (ih hr).trans ((flag_rouse _ _ _).trans (flag_takeOff i rp pp))
      · exact (ih hr).trans (flag_takeOff i rp pp)
      · exact ih hr

theorem flag_setRunning (hsched : ∀ s t, sched s = some t → t.flag = s.flag)
    (h : setRunning sched s pp = some t) : t.flag = s.flag := by
  have hready : ∀ s : Sys Ptr, (ready s pp).flag = s.flag := fun s => (kept_ready s pp).flag
  unfold setRunning at h
  dsimp only at h
  split_ifs at h
  · exact (hsched _ _ h).trans (hready _)
  · exact some.inj h ▸ hready _
  · exact some.inj h ▸ (kept_setDisp rfl).flag.trans (hready _)
  · exact some.inj h ▸ hready _

theorem setRunning_sound (hstop : s.stat k.procSched ≠ .sstop) (h : Ready n s queues) (hs : Queued s sl)
    (hpp : ∀ i, pp ∉ queues i) (hw : s.pWchan pp = 0)
    (hsched : ∀ u, Sound k n u → u.runout = 0 → 0 < s.runout → ∃ t, sched u = some t ∧ Sound k n t) :
    ∃ t, setRunning sched s pp = some t ∧ Sound k n t := by
  obtain ⟨t, hroused, hcall | ⟨hout, hcall⟩⟩ := setRunning_spec h hs hpp hw
  · exact ⟨t, hcall, hroused.sound hs hstop⟩
  · rw [hcall]
    exact hsched _ ((hroused.sound hs hstop).runout 0) rfl hout

/-- `u` is `t`, but `pp` runs. -/
structure Running (n : Nat) (sl queues queues' : Nat → List Ptr) (pp : Ptr) (t u : Sys Ptr) :
    Prop where
  ready : Ready n u queues'
  queued : Queued u fun i => (sl i).erase pp
  wchan : u.pWchan = update t.pWchan pp 0
  stat : u.stat = update t.stat pp .srun
  subset : ∀ i, queues i ⊆ queues' i

theorem Roused.running (h : Roused n sl queues pp s t) (hs : Queued s sl) (hw : s.pWchan pp = 0) :
    Running n sl queues (enqueued s queues pp) pp s t where
  ready := h.ready
  queued := by
    have hnot : ∀ i, pp ∉ sl i := fun i hmem => ((hs.waits i pp).mp hmem).1 hw
    simpa only [erase_of_not_mem (hnot _)] using h.queued hs
  wchan := by rw [h.kept.wchan, ← hw, update_eq_self]
  stat := h.stat
  subset := enqueued_subset queues

variable [Fintype Ptr]

section

variable (h : Sound k n s)
include h

theorem wakeBody_sound (chan : Chan) (prmpt : Bool)
    (hsched : ∀ u, Sound k n u → u.runout = 0 → 0 < s.runout → ∃ t, sched u = some t ∧ Sound k n t) :
    ∃ t, wakeBody sched s chan prmpt = some t ∧ Sound k n t := by
  obtain ⟨hstop, sl, queues, hready, hqueued⟩ := h
  obtain ⟨t, queues', runsched, hcall, hready', hqueued', hwoke, hflag⟩ :=
    wakeBody_spec hready hqueued chan prmpt
  have hsound : Sound k n t := ⟨hwoke.not_stopped hstop, _, _, hready', hqueued'⟩
  rw [hcall]
  cases runsched with
  | false => exact ⟨t, rfl, hsound⟩
  | true =>
    obtain ⟨q, -, hring⟩ := hflag.mp rfl
    have hout : 0 < s.runout := by
      have hwants := hring.2.2
      rw [wantsSched] at hwants
      exact (decide_eq_true_eq.mp hwants).2
    exact hsched _ (hsound.runout 0) rfl hout

theorem setrunBody_sound (pp : Ptr)
    (hsched : ∀ u, Sound k n u → u.runout = 0 → 0 < s.runout → ∃ t, sched u = some t ∧ Sound k n t) :
    ∃ t, setrunBody k sched s pp = some t ∧ Sound k n t := by
  obtain ⟨hstop, sl, queues, hready, hqueued⟩ := h
  obtain ⟨t, hcall, hun⟩ := unsleep_spec hready hqueued pp
  have hw : t.pWchan pp = 0 := by rw [hun.wchan, update_self]
  have hstop' : t.stat k.procSched ≠ .sstop := by rwa [hun.stat]
  have hoff : s.stat pp ≠ .srun → ∀ i, pp ∉ queues i := fun hstat => hready.off_of_stat hstat
  have hrunning : s.stat pp ≠ .srun → ∃ u, setRunning sched t pp = some u ∧ Sound k n u :=
    fun hrun => setRunning_sound hstop' hun.ready hun.queued (hoff hrun) hw (hun.runout ▸ hsched)
  have hrest : s.stat pp ≠ .srun → s.stat pp ≠ .ssleep → s.stat pp ≠ .sstop →
      ∃ t, setRunning sched s pp = some t ∧ Sound k n t := fun hrun hsleep hstop'' =>
    setRunning_sound hstop hready hqueued (hoff hrun) (hready.idle hsleep hstop'') hsched
  unfold setrunBody
  cases hstat : s.stat pp with
  | srun => exact ⟨s, rfl, hstop, sl, queues, hready, hqueued⟩
  | ssleep =>
    rw [hcall, bind_some]
    exact hrunning (by rw [hstat]; decide)
  | sstop =>
    dsimp only
    rw [hcall, bind_some]
    have hsound : Sound k n t := ⟨hstop', _, _, hun.ready, hun.queued⟩
    split_ifs
    · exact wakeBody_sound hsound _ _ (hun.runout ▸ hsched)
    · exact ⟨t, rfl, hsound⟩
    · exact setRunning_sound hstop' (hun.ready.stopped _) (hun.queued.stopped _)
        (hoff (by rw [hstat]; decide)) hw (hun.runout ▸ hsched)
  | szomb => exact hrest (by rw [hstat]; decide) (by rw [hstat]; decide) (by rw [hstat]; decide)
  | sidl => exact hrest (by rw [hstat]; decide) (by rw [hstat]; decide) (by rw [hstat]; decide)
  | sonproc => exact hrest (by rw [hstat]; decide) (by rw [hstat]; decide) (by rw [hstat]; decide)
  | sxbrk => exact hrest (by rw [hstat]; decide) (by rw [hstat]; decide) (by rw [hstat]; decide)

theorem setrunTo_sound {depth : Nat} (hdepth : ¬ 0 < s.runout ∨ 1 < depth + 1)
    (pp : Ptr) : ∃ t, setrunTo k (depth + 1) s pp = some t ∧ Sound k n t := by
  induction depth generalizing s pp with
  | zero =>
    exact setrunBody_sound h pp fun u _ _ hout => absurd hout (hdepth.resolve_right (by decide))
  | succ depth ih =>
    exact setrunBody_sound h pp fun u hu hzero _ => ih hu (.inl (by omega)) k.procSched

theorem setrun_sound (pp : Ptr) : ∃ t, setrun k s pp = some t ∧ Sound k n t :=
  setrunTo_sound h (.inr (by decide)) pp

theorem wakeprocs_sound (chan : Chan) (prmpt : Bool) :
    ∃ t, wakeprocs k s chan prmpt = some t ∧ Sound k n t :=
  wakeBody_sound h chan prmpt fun _ hu _ _ => setrun_sound hu k.procSched

end

/-! ### The flags stay -/

theorem flag_unsleep (h : unsleep s pp = some t) : t.flag = s.flag := by
  unfold unsleep at h
  split_ifs at h
  · rw [some.inj h]
  · obtain ⟨r, -, rfl⟩ := map_eq_some_iff.mp h
    exact flag_setPlink (sqhash (s.pWchan pp)) _ r.1

theorem flag_wakeBody (hsched : ∀ s t, sched s = some t → t.flag = s.flag)
    (h : wakeBody sched s chan prmpt = some t) : t.flag = s.flag := by
  obtain ⟨r, hr, hrun⟩ := bind_eq_some_iff.mp h
  have hloop := flag_wakeLoop hr
  unfold runSched at hrun
  split_ifs at hrun
  · exact (hsched _ _ hrun).trans hloop
  · exact some.inj hrun ▸ hloop

theorem flag_setrunBody (hsched : ∀ s t, sched s = some t → t.flag = s.flag)
    (h : setrunBody k sched s pp = some t) : t.flag = s.flag := by
  unfold setrunBody at h
  split at h
  · rw [some.inj h]
  · obtain ⟨u, hu, h⟩ := bind_eq_some_iff.mp h
    exact (flag_setRunning hsched h).trans (flag_unsleep hu)
  · obtain ⟨u, hu, h⟩ := bind_eq_some_iff.mp h
    split_ifs at h
    · exact (flag_wakeBody hsched h).trans (flag_unsleep hu)
    · exact some.inj h ▸ flag_unsleep hu
    · have hrun := flag_setRunning hsched h
      exact hrun.trans (show u.flag = s.flag from flag_unsleep hu)
  · exact flag_setRunning hsched h

theorem flag_setrun (h : setrun k s pp = some t) : t.flag = s.flag :=
  flag_setrunBody (fun _ _ h => flag_setrunBody (fun _ _ h => (some_ne_none _ h.symm).elim) h) h

/-! ### The swapper -/

/-- `setrun`, when the swapper is not to hear of it, of a process that is not stopped. -/
theorem setrun_quiet (h : Ready n s queues) (hs : Queued s sl) (hstop : s.stat pp ≠ .sstop)
    (hquiet : ¬ 0 < s.runout) :
    ∃ t queues', setrun k s pp = some t ∧ Running n sl queues queues' pp s t := by
  have hrest : s.stat pp ≠ .srun → s.stat pp ≠ .ssleep → ∃ t queues',
      setRunning (fun t => setrunTo k 1 t k.procSched) s pp = some t ∧
        Running n sl queues queues' pp s t := by
    intro hrun hsleep
    have hw : s.pWchan pp = 0 := h.idle hsleep hstop
    obtain ⟨t, hroused, hcall | ⟨hout, -⟩⟩ := setRunning_spec h hs (h.off_of_stat hrun) hw
    · exact ⟨t, _, hcall, hroused.running hs hw⟩
    · exact absurd hout hquiet
  change ∃ t queues', setrunBody k (fun t => setrunTo k 1 t k.procSched) s pp = some t ∧ _
  unfold setrunBody
  cases hstat : s.stat pp with
  | srun =>
    have hw : s.pWchan pp = 0 := h.idle (by rw [hstat]; decide) hstop
    have hnot : ∀ i, pp ∉ sl i := fun i hmem => ((hs.waits i pp).mp hmem).1 hw
    refine ⟨s, queues, rfl, h, ?_, ?_, ?_, fun _ _ hq => hq⟩
    · simpa only [erase_of_not_mem (hnot _)] using hs
    · rw [← hw, update_eq_self]
    · rw [← hstat, update_eq_self]
  | ssleep =>
    obtain ⟨t, hcall, hun⟩ := unsleep_spec h hs pp
    have hw : t.pWchan pp = 0 := by rw [hun.wchan, update_self]
    have hoff : ∀ i, pp ∉ queues i := h.off_of_stat (by rw [hstat]; decide)
    rw [hcall, bind_some]
    obtain ⟨u, hroused, hrun | ⟨hout, -⟩⟩ := setRunning_spec hun.ready hun.queued hoff hw
    · have hr := hroused.running hun.queued hw
      refine ⟨u, _, hrun, hr.ready, ?_, ?_, ?_, hr.subset⟩
      · have hgone : ∀ i, pp ∉ (sl i).erase pp := fun i hmem =>
          ((hun.queued.waits i pp).mp hmem).1 hw
        simpa only [erase_of_not_mem (hgone _)] using hr.queued
      · rw [hr.wchan, hun.wchan, update_idem]
      · rw [hr.stat, hun.stat]
    · exact absurd (hun.runout ▸ hout) hquiet
  | sstop => exact absurd hstat hstop
  | szomb => exact hrest (by rw [hstat]; decide) (by rw [hstat]; decide)
  | sidl => exact hrest (by rw [hstat]; decide) (by rw [hstat]; decide)
  | sonproc => exact hrest (by rw [hstat]; decide) (by rw [hstat]; decide)
  | sxbrk => exact hrest (by rw [hstat]; decide) (by rw [hstat]; decide)

def WithoutSwapper (k : Kernel Ptr) (rung : Prop) (sl sl' : Nat → List Ptr) : Prop :=
  (rung → ∀ i, sl' i = (sl i).erase k.procSched) ∧ (¬ rung → sl' = sl)

/-- How `wakeprocs` and `wake_oneproc` end. -/
theorem runSched_spec {rung : Prop} {sl' : Nat → List Ptr} (hstop : s.stat k.procSched ≠ .sstop)
    (hwoke : Woke i off s t queues queues') (hready : Ready n t queues') (hqueued : Queued t sl')
    (hflag : runsched = true ↔ rung) :
    ∃ u sl'' queues'', runSched (fun t => setrun k t k.procSched) runsched t = some u ∧
      Ready n u queues'' ∧ Queued u sl'' ∧ WithoutSwapper k rung sl' sl'' ∧
      Awoken k off rung s u queues'' := by
  have hstill : t.stat k.procSched ≠ .sstop := hwoke.not_stopped hstop
  have hsame : ∀ pp, off pp → s.stat pp = .sstop → t.stat pp = .sstop := fun pp hpp hstat => by
    rw [hwoke.stat pp fun _ => by rw [hstat]; decide, hstat]
  cases runsched with
  | false =>
    have hno : ¬ rung := fun hr => absurd (hflag.mpr hr) (by decide)
    exact ⟨t, sl', queues', rfl, hready, hqueued, ⟨fun hr => absurd hr hno, fun _ => rfl⟩,
      hwoke.gone, hwoke.roused, hsame, fun pp hpp _ =>
        ⟨hwoke.kept pp hpp, hwoke.stat pp fun h => absurd h hpp⟩, fun hr => absurd hr hno⟩
  | true =>
    have hr : rung := hflag.mp rfl
    have hready' : Ready n { t with runout := 0 } queues' :=
      ⟨hready.consistent, hready.pri, hready.awake, hready.asleep⟩
    have hqueued' : Queued { t with runout := 0 } sl' := ⟨⟨hqueued.linked, hqueued.waits⟩, hqueued.last⟩
    obtain ⟨u, queues'', hcall, hrun⟩ := setrun_quiet (k := k) hready' hqueued' hstill (Int.lt_irrefl 0)
    refine ⟨u, _, queues'', hcall, hrun.ready, hrun.queued, ⟨fun _ _ => rfl, fun hno =>
      absurd hr hno⟩, fun pp hpp => ?_, fun pp hpp hsleep => ?_, fun pp hpp hstat => ?_,
      fun pp hpp hne => ?_, fun _ => ?_⟩
    · rw [hrun.wchan]
      by_cases heq : pp = k.procSched
      · rw [heq, update_self]
      · rw [update_of_ne heq]
        exact hwoke.gone pp hpp
    · obtain ⟨hstat, j, hj⟩ := hwoke.roused pp hpp hsleep
      refine ⟨?_, j, hrun.subset j hj⟩
      rw [hrun.stat]
      by_cases heq : pp = k.procSched
      · rw [heq, update_self]
      · rw [update_of_ne heq]
        exact hstat
    · have hne : pp ≠ k.procSched := fun heq => hstop (heq ▸ hstat)
      rw [hrun.stat, update_of_ne hne]
      exact hsame pp hpp hstat
    · rw [hrun.wchan, hrun.stat, update_of_ne (hne hr), update_of_ne (hne hr)]
      exact ⟨hwoke.kept pp hpp, hwoke.stat pp fun h => absurd h hpp⟩
    · rw [hrun.wchan, hrun.stat]
      exact ⟨update_self _ _ _, update_self _ _ _⟩

theorem wakeprocs_spec (h : Ready n s queues) (hs : Queued s sl) (hstop : s.stat k.procSched ≠ .sstop)
    (chan : Chan) (prmpt : Bool) :
    ∃ u sl' queues', wakeprocs k s chan prmpt = some u ∧ Ready n u queues' ∧ Queued u sl' ∧
      WithoutSwapper k (∃ q, WaitsOn s chan q ∧ Rings s chan q)
        (update sl (sqhash chan) ((sl (sqhash chan)).filter fun q => s.pWchan q ≠ chan))
        sl' ∧
      Awoken k (WaitsOn s chan) (∃ q, WaitsOn s chan q ∧ Rings s chan q) s u queues' := by
  obtain ⟨t, queues', runsched, hcall, hready, hqueued, hwoke, hflag⟩ := wakeBody_spec h hs chan prmpt
  obtain ⟨u, sl', queues'', hsched, hready', hqueued', hlists, hawoken⟩ :=
    runSched_spec hstop hwoke hready hqueued hflag
  exact ⟨u, sl', queues'', hcall.trans hsched, hready', hqueued', hlists, hawoken⟩

/-- The queue is `passed`, then the first process that sleeps on `chan`, if there is one, then
`later`. What waits on `chan` in `passed` is stopped. -/
structure FirstSleeper (s : Sys Ptr) (chan : Chan) (passed later : List Ptr) (woken : Option Ptr) :
    Prop where
  stopped : ∀ q ∈ passed, s.pWchan q = chan → s.stat q ≠ .ssleep
  first : ∀ pp, woken = some pp → s.pWchan pp = chan ∧ s.stat pp = .ssleep
  whole : woken = none → later = []

theorem wakeOneproc_spec (h : Ready n s queues) (hs : Queued s sl) (hstop : s.stat k.procSched ≠ .sstop)
    (chan : Chan) (prmpt : Bool) :
    ∃ u sl' queues' passed woken later, wakeOneproc k s chan prmpt = some u ∧
      sl (sqhash chan) = passed ++ (woken.toList ++ later) ∧
      FirstSleeper s chan passed later woken ∧ Ready n u queues' ∧ Queued u sl' ∧
      WithoutSwapper k (∃ pp, woken = some pp ∧ wantsSched s pp = true) (update sl (sqhash chan)
          ((passed.filter fun q => s.pWchan q ≠ chan) ++ later)) sl' ∧
      Awoken k (fun q => (q ∈ passed ∧ s.pWchan q = chan) ∨ woken = some q)
        (∃ pp, woken = some pp ∧ wantsSched s pp = true) s u queues' := by
  have hempty : sl (sqhash chan) = [] ++ sl (sqhash chan) := rfl
  obtain ⟨t, queues', runsched, passed, woken, later, hloop, hcells, hdone, hflag⟩ :=
    oneLoop_spec chan prmpt h hs hempty (hs.toHeld.length_lt (sqhash chan))
  obtain ⟨u, sl', queues'', hsched, hready, hqueued, hlists, hawoken⟩ :=
    runSched_spec hstop hdone.woke hdone.ready hdone.queued hflag
  refine ⟨u, sl', queues'', passed, woken, later, ?_, hcells,
    ⟨hdone.stopped, hdone.first, hdone.whole⟩, hready, hqueued, hlists, hawoken⟩
  change (oneLoop _ chan prmpt _ (getLast? []) s).bind _ = _
  rw [hloop]
  exact hsched

end Svr42.Slp
