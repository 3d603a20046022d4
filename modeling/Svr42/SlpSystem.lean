import Svr42.SlpRuns

/-! The sleep queues in every run: the steps of the processes that sleep and of those that wake
them, in any order. -/

namespace Svr42.Slp
open Function List Option

open Disp

/-- The step of `giveUp` is taken with the `disp` of the `sleep` before it, and with the priority
`pri` of the class; `kernel` is whatever happens between the calls. -/
inductive Event (Ptr : Type) where
  | sleep (pp : Ptr) (chan : Chan) (disp : Nat)
  | interrupted (pp : Ptr)
  | giveUp (pp : Ptr) (disp pri : Nat)
  | resumed (pp : Ptr)
  | unsleep (pp : Ptr)
  | setrun (pp : Ptr)
  | wakeprocs (chan : Chan) (prmpt : Bool)
  | wakeOneproc (chan : Chan) (prmpt : Bool)
  | kernel (u : Sys Ptr)

variable {Ptr : Type} {s t u : Sys Ptr} {n : Nat} {sl queues queues' : Nat → List Ptr} {pp : Ptr}
  {chan : Chan} {k : Kernel Ptr}

/-- Between the calls processes are put on dispatcher queues, run, change their flags, stop and
exit, but those that wait keep their channels and links, and the swapper is never stopped. -/
structure Elsewhere (k : Kernel Ptr) (n : Nat) (s u : Sys Ptr) : Prop where
  sleepq : u.sleepq = s.sleepq
  wchan : u.pWchan = s.pWchan
  link : ∀ pp, s.pWchan pp ≠ 0 → u.disp.link pp = s.disp.link pp
  ready : ∃ queues, Ready n u queues
  swapper : u.stat k.procSched ≠ .sstop

/-- Nothing sleeps yet. -/
structure Booted (k : Kernel Ptr) (n : Nat) (s : Sys Ptr) : Prop where
  empty : ∀ i, s.sleepq i = ⟨none, none⟩
  awake : ∀ pp, s.pWchan pp = 0
  ready : ∃ queues, Ready n s queues
  swapper : s.stat k.procSched ≠ .sstop

theorem Booted.sound (h : Booted k n s) : Sound k n s := by
  obtain ⟨queues, hready⟩ := h.ready
  refine ⟨h.swapper, fun _ => [], queues, hready, ⟨⟨fun i => ?_, fun i pp => ?_⟩, fun i => ?_⟩⟩
  · rw [h.empty]
    rfl
  · exact iff_of_false not_mem_nil fun hno => hno.1 (h.awake pp)
  · rw [h.empty]
    rfl

theorem Elsewhere.sound (h : Elsewhere k n s u) (hs : Sound k n s) : Sound k n u := by
  obtain ⟨-, sl, -, -, hqueued⟩ := hs
  obtain ⟨queues, hready⟩ := h.ready
  refine ⟨h.swapper, sl, queues, hready, hqueued.toHeld.congr h.link (fun i => ?_) h.wchan, fun i => ?_⟩
  · rw [h.sleepq]
  · rw [h.sleepq]
    exact hqueued.last i

variable [DecidableEq Ptr]

section

variable (h : Ready n s queues) (hs : Queued s sl) (hpp : ∀ i, pp ∉ queues i)
include h hs hpp

/-- A change of a process that is on no dispatcher queue, and is the swapper only if it does not
stop it. -/
theorem setProc_sound {p : Proc Ptr} (hlink : p.pLink = s.disp.link pp) (hpri : p.pPri < n)
    (hstat : s.pWchan pp ≠ 0 → p.pStat = .ssleep ∨ p.pStat = .sstop)
    (hstop : s.stat k.procSched ≠ .sstop) (hswap : pp = k.procSched → p.pStat ≠ .sstop) :
    Sound k n (setProc s pp p) := by
  refine ⟨?_, sl, queues, h.setProc hpp hpri hstat, hs.setProc hlink⟩
  rw [stat_setProc]
  by_cases heq : k.procSched = pp
  · rw [heq, update_self]
    exact hswap heq.symm
  · rwa [update_of_ne heq]

theorem setFlag_sound
    (hstop : s.stat k.procSched ≠ .sstop) (pFlag : BitVec 32) : Sound k n (setFlag s pp pFlag) :=
  setProc_sound h hs hpp rfl (h.pri pp) (h.asleep pp) hstop fun heq => heq ▸ hstop

end

theorem Sound.setFlag (hs : Sound k n s) (hpp : s.stat pp ≠ .srun) (pFlag : BitVec 32) :
    Sound k n (setFlag s pp pFlag) := by
  obtain ⟨hstop, sl, queues, hready, hqueued⟩ := hs
  exact setFlag_sound hready hqueued (hready.off_of_stat hpp) hstop pFlag

variable [Fintype Ptr]

def call (k : Kernel Ptr) (s : Sys Ptr) : Event Ptr → Option (Sys Ptr)
  | .sleep pp chan disp => sleep s pp chan disp
  | .interrupted pp => interrupted s pp
  | .giveUp pp disp pri => giveUp k s pp disp pri
  | .resumed pp => some (resumed s pp)
  | .unsleep pp => unsleep s pp
  | .setrun pp => setrun k s pp
  | .wakeprocs chan prmpt => wakeprocs k s chan prmpt
  | .wakeOneproc chan prmpt => wakeOneproc k s chan prmpt
  | .kernel u => some u

/-- The calls as they are made: a process that runs is on no dispatcher queue. The swapper is the
one process that sleeps on `runin`, with a priority that no signal disturbs. -/
def Enabled (k : Kernel Ptr) (n : Nat) (s : Sys Ptr) : Event Ptr → Prop
  | .sleep pp chan _ => chan ≠ 0 ∧ s.pWchan pp = 0 ∧ ¬ OnQueue s.disp pp
  | .interrupted pp => ¬ OnQueue s.disp pp
  | .giveUp pp disp pri => ¬ OnQueue s.disp pp ∧ pri < n ∧
      (disp &&& PMASK > PZERO → pp ≠ k.procSched ∧ s.pWchan pp ≠ k.runinAddr)
  | .resumed pp => ¬ OnQueue s.disp pp
  | .kernel u => Elsewhere k n s u
  | _ => True

def Step (k : Kernel Ptr) (n : Nat) (s : Sys Ptr) (event : Event Ptr) (t : Sys Ptr) : Prop :=
  Enabled k n s event ∧ call k s event = some t

omit [DecidableEq Ptr] in
theorem Ready.not_mem (h : Ready n s queues) (hpp : ¬ OnQueue s.disp pp) (i : Nat) : pp ∉ queues i :=
  fun hmem => hpp ((onQueue_iff h.consistent.lists).mpr ⟨i, hmem⟩)

section

variable (hs : Sound k n s)
include hs

theorem sleep_sound (hchan : chan ≠ 0) (hw : s.pWchan pp = 0) (hoff : ¬ OnQueue s.disp pp) (disp : Nat) :
    ∃ t, sleep s pp chan disp = some t ∧ Sound k n t := by
  obtain ⟨hstop, sl, queues, hready, hqueued⟩ := hs
  have hpp := hready.not_mem hoff
  obtain ⟨t, hcall, hready', hqueued', hstat⟩ := sleepOn_spec hready hqueued hpp hw hchan
  refine ⟨setFlag t pp (sleepFlags (t.flag pp) disp), by rw [sleep, hcall, map_some],
    setFlag_sound hready' hqueued' hpp ?_ _⟩
  rw [hstat]
  by_cases heq : k.procSched = pp
  · rw [heq, update_self]
    decide
  · rwa [update_of_ne heq]

theorem unsleep_sound (pp : Ptr) : ∃ t, unsleep s pp = some t ∧ Sound k n t := by
  obtain ⟨hstop, sl, queues, hready, hqueued⟩ := hs
  obtain ⟨t, hcall, hun⟩ := unsleep_spec hready hqueued pp
  exact ⟨t, hcall, hun.stat ▸ hstop, _, _, hun.ready, hun.queued⟩

theorem resumed_sound (hoff : ¬ OnQueue s.disp pp) : Sound k n (resumed s pp) := by
  obtain ⟨hstop, sl, queues, hready, hqueued⟩ := hs
  exact setFlag_sound hready hqueued (hready.not_mem hoff) hstop _

theorem interrupted_sound (hoff : ¬ OnQueue s.disp pp) :
    ∃ t, interrupted s pp = some t ∧ Sound k n t := by
  obtain ⟨hstop, sl, queues, hready, hqueued⟩ := hs
  have hpp := hready.not_mem hoff
  unfold interrupted
  split_ifs with hsleep
  · obtain ⟨t, hcall, hun⟩ := unsleep_spec hready hqueued pp
    have hstop' : t.stat k.procSched ≠ .sstop := by rwa [hun.stat]
    have hw : t.pWchan pp = 0 := by rw [hun.wchan, update_self]
    have hset : Sound k n (setStat t pp .sonproc) :=
      setProc_sound hun.ready hun.queued hpp rfl (hun.ready.pri pp) (fun hno => absurd hw hno)
        hstop' fun _ => (by decide : Stat.sonproc ≠ .sstop)
    have hready' : Ready n (setStat t pp .sonproc) queues :=
      hun.ready.setProc hpp (hun.ready.pri pp) fun hno => absurd hw hno
    rw [hcall]
    exact ⟨_, rfl, setFlag_sound hready' (hun.queued.setProc rfl) hpp hset.1 _⟩
  · exact ⟨_, rfl, setFlag_sound hready hqueued hpp hstop _⟩

theorem wakeOneproc_sound (chan : Chan) (prmpt : Bool) :
    ∃ t, wakeOneproc k s chan prmpt = some t ∧ Sound k n t := by
  obtain ⟨hstop, sl, queues, hready, hqueued⟩ := hs
  obtain ⟨u, sl', queues', passed, woken, later, hcall, hcells, hfirst, hr, hq, -, hawoken⟩ :=
    wakeOneproc_spec hready hqueued hstop chan prmpt
  refine ⟨u, hcall, hawoken.swapper_runs hstop fun hoff => ?_, sl', queues', hr, hq⟩
  rcases hoff with ⟨hpassed, -⟩ | hwoken
  · have hmem : k.procSched ∈ sl (sqhash chan) := hcells ▸ mem_append_left _ hpassed
    exact (hready.asleep _ ((hqueued.waits _ _).mp hmem).1).resolve_right hstop
  · exact (hfirst.first _ hwoken).2

/-- A process that gives up the processor still waits after the swapper has been woken. -/
theorem giveUp_sound {disp pri : Nat} (hoff : ¬ OnQueue s.disp pp) (hpri : pri < n)
    (hself : disp &&& PMASK > PZERO → pp ≠ k.procSched ∧ s.pWchan pp ≠ k.runinAddr) :
    ∃ t, giveUp k s pp disp pri = some t ∧ Sound k n t := by
  obtain ⟨hstop, sl, queues, hready, hqueued⟩ := hs
  have hpp := hready.not_mem hoff
  have hrest : ∀ t : Sys Ptr, t.stat k.procSched ≠ .sstop → ∀ sl queues, Ready n t queues →
      Queued t sl → (∀ i, pp ∉ queues i) →
      Sound k n (setProc t pp { t.disp.proc pp with pPri := pri }) :=
    fun t hst _ _ hr hq hno =>
      setProc_sound hr hq hno rfl hpri (hr.asleep pp) hst fun heq => heq ▸ hst
  have hflag : ∀ t : Sys Ptr, t.stat k.procSched ≠ .sstop → ∀ sl queues, Ready n t queues →
      Queued t sl → (∀ i, pp ∉ queues i) → ∀ pFlag, Sound k n (setProc (setFlag t pp pFlag) pp
        { (setFlag t pp pFlag).disp.proc pp with pPri := pri }) := by
    intro t hst sl queues hr hq hno pFlag
    have hset := setFlag_sound (k := k) hr hq hno hst pFlag
    exact hrest _ hset.1 sl queues (hr.setProc hno (hr.pri pp) (hr.asleep pp)) (hq.setProc rfl) hno
  unfold giveUp
  split_ifs with hlow hw hrunin
  · exact ⟨_, rfl, setFlag_sound hready hqueued hpp hstop _⟩
  · obtain ⟨hne, hwait⟩ := hself hlow
    have hready' : Ready n { s with runin := 0 } queues :=
      ⟨hready.consistent, hready.pri, hready.awake, hready.asleep⟩
    have hqueued' : Queued { s with runin := 0 } sl := ⟨⟨hqueued.linked, hqueued.waits⟩, hqueued.last⟩
    obtain ⟨u, sl', queues', hcall, hr, hq, -, hawoken⟩ :=
      wakeprocs_spec (k := k) hready' hqueued' hstop k.runinAddr true
    have hstays := hawoken.others pp (fun hon => hwait hon.1) fun _ => hne
    have hno : ∀ i, pp ∉ queues' i := hr.off (by rw [hstays.1]; exact hw)
    have hasleep : WaitsOn { s with runin := 0 } k.runinAddr k.procSched →
        s.stat k.procSched = .ssleep := fun hon =>
      (hready.asleep _ (hon.1.symm ▸ hon.2)).resolve_right hstop
    rw [hcall]
    exact ⟨_, rfl, hflag u (hawoken.swapper_runs hstop hasleep) sl' queues' hr hq hno _⟩
  · exact ⟨_, rfl, hflag s hstop sl queues hready hqueued hpp _⟩
  · exact ⟨_, rfl, hrest s hstop sl queues hready hqueued hpp⟩

theorem call_sound {event : Event Ptr} (hen : Enabled k n s event) :
    ∃ t, call k s event = some t ∧ Sound k n t := by
  cases event with
  | sleep pp chan disp => exact sleep_sound hs hen.1 hen.2.1 hen.2.2 disp
  | interrupted pp => exact interrupted_sound hs hen
  | giveUp pp disp pri => exact giveUp_sound hs hen.1 hen.2.1 hen.2.2
  | resumed pp => exact ⟨_, rfl, resumed_sound hs hen⟩
  | unsleep pp => exact unsleep_sound hs pp
  | setrun pp => exact setrun_sound hs pp
  | wakeprocs chan prmpt => exact wakeprocs_sound hs chan prmpt
  | wakeOneproc chan prmpt => exact wakeOneproc_sound hs chan prmpt
  | kernel u => exact ⟨u, rfl, hen.sound hs⟩

end

/-- `wakeprocs` on `chan`: who it takes off which queues. -/
def Wakes (k : Kernel Ptr) (n : Nat) (sl : Nat → List Ptr) (s : Sys Ptr) (chan : Chan) (u : Sys Ptr) :
    Prop :=
  ∃ sl' queues', Ready n u queues' ∧ Queued u sl' ∧
    WithoutSwapper k (∃ q, WaitsOn s chan q ∧ Rings s chan q)
      (update sl (sqhash chan) ((sl (sqhash chan)).filter fun q => s.pWchan q ≠ chan))
      sl' ∧
    Awoken k (WaitsOn s chan) (∃ q, WaitsOn s chan q ∧ Rings s chan q) s u queues'

/-- `wake_oneproc` on `chan`. -/
def WakesOne (k : Kernel Ptr) (n : Nat) (sl : Nat → List Ptr) (s : Sys Ptr) (chan : Chan) (u : Sys Ptr) :
    Prop :=
  ∃ sl' queues' passed woken later, sl (sqhash chan) = passed ++ (woken.toList ++ later) ∧
    FirstSleeper s chan passed later woken ∧ Ready n u queues' ∧ Queued u sl' ∧
    WithoutSwapper k (∃ pp, woken = some pp ∧ wantsSched s pp = true)
      (update sl (sqhash chan)
        ((passed.filter fun q => s.pWchan q ≠ chan) ++ later)) sl' ∧
    Awoken k (fun q => (q ∈ passed ∧ s.pWchan q = chan) ∨ woken = some q)
      (∃ pp, woken = some pp ∧ wantsSched s pp = true) s u queues'

/-- In every state that is reached the sleep queues are lists of what waits, with the right tail
pointers, every call returns, and `wakeprocs` and `wake_oneproc` take off what waits on the channel,
or the first that sleeps on it, and the swapper if one of those is swapped out. -/
theorem sleep_queues_run {events : List (Event Ptr)} (hboot : Booted k n s)
    (hrun : Exec (Step k n) s events t) : ∃ sl, Queued t sl ∧
      (∀ event, Enabled k n t event → ∃ u, call k t event = some u) ∧
      (∀ chan prmpt, ∃ u, wakeprocs k t chan prmpt = some u ∧ Wakes k n sl t chan u) ∧
      ∀ chan prmpt, ∃ u, wakeOneproc k t chan prmpt = some u ∧ WakesOne k n sl t chan u := by
  have hsound : Sound k n t := by
    refine hrun.keeps (Sound k n) (fun s event t hs hstep => ?_) hboot.sound
    obtain ⟨u, hcall, hu⟩ := call_sound hs hstep.1
    rwa [some.inj (hstep.2.symm.trans hcall)]
  obtain ⟨hstop, sl, queues, hready, hqueued⟩ := hsound
  refine ⟨sl, hqueued, fun event hen => ?_, fun chan prmpt => ?_, fun chan prmpt => ?_⟩
  · obtain ⟨u, hcall, -⟩ := call_sound ⟨hstop, sl, queues, hready, hqueued⟩ hen
    exact ⟨u, hcall⟩
  · obtain ⟨u, sl', queues', hcall, hrest⟩ := wakeprocs_spec hready hqueued hstop chan prmpt
    exact ⟨u, hcall, sl', queues', hrest⟩
  · obtain ⟨u, sl', queues', passed, woken, later, hcall, hrest⟩ :=
      wakeOneproc_spec hready hqueued hstop chan prmpt
    exact ⟨u, hcall, sl', queues', passed, woken, later, hrest⟩

/-- Two processes that run, of which 1 is the swapper. -/
def twoRunning : Sys (Fin 2) where
  disp := dispinit ⟨fun pp => ⟨none, 0, if pp = 1 then sSYS ||| sLOAD else sLOAD, .sonproc⟩,
    fun _ => ⟨none, none, 0⟩, fun _ => 0, 0, -1, 0, 0, none, 0, 0, 0, 0⟩
  pWchan := fun _ => 0
  stopped := fun _ => ⟨0, 0, 0, 0⟩
  pParent := fun _ => 0
  sleepq := fun _ => ⟨none, none⟩
  runin := 0
  runout := 0

def swapper : Kernel (Fin 2) := ⟨1, fun pp => if pp = 0 then 0x3000 else 0x4000, 0x5000⟩

def oneAsleep : Sys (Fin 2) := (sleep twoRunning 0 0x1000 0).getD twoRunning

theorem twoRunning_booted : Booted swapper 1 twoRunning where
  empty _ := rfl
  awake _ := rfl
  ready := ⟨fun _ => [], dispinit_consistent, fun _ => Nat.one_pos, fun _ _ hno =>
    absurd hno not_mem_nil, fun _ hno => absurd rfl hno⟩
  swapper := by decide

theorem oneAsleep_step : Step swapper 1 twoRunning (.sleep 0 0x1000 0) oneAsleep := by
  refine ⟨⟨by decide, rfl, fun hon => ?_⟩, (getD_of_ne_none ?_ _).symm⟩
  · obtain ⟨i, hmem⟩ := (onQueue_iff (dispinit_consistent (n := 1)).lists).mp hon
    cases hmem
  · exact isSome_iff_ne_none.mp (by decide)

theorem sleep_queues_run_one : ∃ sl, Queued oneAsleep sl ∧
    ∃ u, wakeprocs swapper oneAsleep 0x1000 true = some u ∧ Wakes swapper 1 sl oneAsleep 0x1000 u := by
  obtain ⟨sl, hqueued, -, hwakes, -⟩ := sleep_queues_run twoRunning_booted (Exec.single oneAsleep_step)
  exact ⟨sl, hqueued, hwakes 0x1000 true⟩

def swappedOut : Sys (Fin 2) := { setFlag oneAsleep 0 0 with runout := 1 }

def bothAsleep : Sys (Fin 2) := (sleep swappedOut 1 0x2000 0).getD swappedOut

/-- `wakeprocs` on the channel of process 0 also takes the swapper off its queue. -/
theorem wakeprocs_swapper : ∃ u, Booted swapper 1 twoRunning ∧ Exec (Step swapper 1) twoRunning
      [.sleep 0 0x1000 0, .kernel swappedOut, .sleep 1 0x2000 0] bothAsleep ∧
    wakeprocs swapper bothAsleep 0x1000 true = some u ∧
    bothAsleep.pWchan 1 = 0x2000 ∧ u.pWchan 1 = 0 := by
  obtain ⟨hstop, sl, queues, hready, -⟩ : Sound swapper 1 oneAsleep := by
    obtain ⟨t, hcall, ht⟩ := call_sound twoRunning_booted.sound oneAsleep_step.1
    rwa [some.inj (oneAsleep_step.2.symm.trans hcall)]
  have hflag : Ready 1 (setFlag oneAsleep 0 0) queues :=
    hready.setProc (hready.off (by decide)) (hready.pri 0) (hready.asleep 0)
  have hout : Ready 1 swappedOut queues := ⟨hflag.consistent, hflag.pri, hflag.awake, hflag.asleep⟩
  have helse : Elsewhere swapper 1 oneAsleep swappedOut := by
    refine ⟨rfl, rfl, fun pp _ => ?_, ⟨queues, hout⟩, by decide⟩
    revert pp
    decide
  have hsleep : Step swapper 1 swappedOut (.sleep 1 0x2000 0) bothAsleep := by
    have hcall : (sleep swappedOut 1 0x2000 0).isSome := by decide +kernel
    refine ⟨⟨by decide, by decide, fun hon => ?_⟩,
      (getD_of_ne_none (isSome_iff_ne_none.mp hcall) _).symm⟩
    obtain ⟨i, hmem⟩ := (onQueue_iff hout.consistent.lists).mp hon
    exact hout.off_of_stat (by decide) i hmem
  have hswap : Step swapper 1 oneAsleep (.kernel swappedOut) swappedOut := ⟨helse, rfl⟩
  have hrun := ((Exec.single oneAsleep_step).snoc hswap).snoc hsleep
  have hcall : (wakeprocs swapper bothAsleep 0x1000 true).isSome := by decide +kernel
  exact ⟨(wakeprocs swapper bothAsleep 0x1000 true).getD bothAsleep, twoRunning_booted, hrun,
    (getD_of_ne_none (isSome_iff_ne_none.mp hcall) _).symm, by decide,
    by decide +kernel⟩

end Svr42.Slp
