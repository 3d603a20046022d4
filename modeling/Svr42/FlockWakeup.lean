import Svr42.FlockRuns

/-! Who sleeps in `reclock` sleeps on an entry that is there, blocks its request and will wake it;
unless the counter of sleepers, which no wakeup by a signal counts down, has come round to zero. -/

namespace Svr42.Flck
open Function List

def Pass.wakes : Pass → List Nat
  | .ret _ wakes _ _ => wakes
  | .sleep _ _ _ _ => []

@[simp]
theorem Pass.restore_wakes (r : Pass) : r.restore.wakes = r.wakes := by
  cases r <;> rfl

/-- A request goes to sleep on `found`. -/
structure Sleeps (k : Kmem) (fuel : Nat) (c : Call) (s : Sys) (ld : Flock) (found : Filock) :
    Prop where
  waits : Waits fuel c s ld found
  canAlloc : s.mem.CanAlloc k
  notRemote : c.cmd.rcmdlck = false

section

variable {k : Kmem} {fuel : Nat} {c : Call} {s : Sys} {ld : Flock}

theorem Adjusts.entry {a : Adj} {code : Option Errno} (h : Adjusts k c s ld a code) {s' : Sys}
    (hlist : s'.filocks = Function.update s.filocks c.vp a.list) {vp : Nat} {f : Filock}
    (hf : f ∈ s.filocks vp) (hflg : f.stat.wakeflg ≠ 0) : f ∈ s'.filocks vp ∨ f.addr ∈ a.wakes := by
  rw [hlist]
  by_cases hvp : vp = c.vp
  · subst hvp
    rw [update_self]
    rcases h.adj.wakeFrame f hf with hin | hzero | hwoken
    · exact .inl hin
    · exact absurd hzero hflg
    · exact .inr hwoken
  · rw [update_of_ne hvp]
    exact .inl hf

/-- What a pass does to an entry with sleepers: it stays, or it wakes them, or it is counted once
more. -/
theorem PassCase.entry {r : Pass} (h : PassCase k fuel c s ld r) {vp : Nat} {f : Filock}
    (hf : f ∈ s.filocks vp) (hflg : f.stat.wakeflg ≠ 0) : f ∈ r.sys.filocks vp ∨ f.addr ∈ r.wakes ∨
      ∃ found, Sleeps k fuel c s ld found ∧ vp = c.vp ∧ counted found f ∈ r.sys.filocks vp := by
  cases h with
  | unchanged _ => exact .inl hf
  | tested _ => exact .inl hf
  | adjusted ha => exact (ha.entry rfl hf hflg).imp_right .inl
  | adjustedRemote ha =>
    exact (ha.entry rfl hf hflg).imp_right fun hin => .inl (mem_append_left _ hin)
  | noSleeper _ => exact .inl hf
  | queued _ _ => exact .inl hf
  | slept hw halloc hremote =>
    by_cases hvp : vp = c.vp
    · subst hvp
      refine .inr (.inr ⟨_, ⟨hw, halloc, hremote⟩, rfl, ?_⟩)
      simp only [Pass.sys, Sys.setFilocks, update_self]
      exact mem_map_of_mem hf
    · refine .inl ?_
      simpa only [Pass.sys, Sys.setFilocks, Sys.setSleeplcks, update_of_ne hvp] using hf

end

/-! ### Runs -/

def Counts (k : Kmem) (st : State) : Event → Prop
  | .run _ c e => ∀ s₁ ld fuel found, passStart c st.sys e = some (s₁, ld) →
      Sleeps k fuel c s₁ ld found → int32 (found.stat.wakeflg + 1) ≠ 0
  | _ => True

/-- The entry a process sleeps on is there, blocks the request, and has its flag set. -/
def Proc.Awaited (s : Sys) : Proc → Prop
  | .asleep c lckdat found _ =>
      ∃ f ∈ s.filocks c.vp, f.addr = found ∧ Blocks c.xenix lckdat f ∧ f.stat.wakeflg ≠ 0
  | _ => True

structure AwaitOk (st : State) : Prop where
  ok : StateOk st
  awaited : ∀ i, (st.procs i).Awaited st.sys

theorem AwaitOk.initial : AwaitOk initial := ⟨StateOk.initial, fun _ => trivial⟩

variable {st : State} {i found sf : Nat} {r : Pass}

/-- A process asleep after a stretch was asleep before it and has not been woken, unless it is the one
that ran. -/
theorem State.after_asleep {j : Nat} {c c' : Call} {ld : Flock}
    (h : (st.after j c' r).procs i = .asleep c ld found sf) :
    (i = j ∧ c = c' ∧ ∃ s, r = .sleep s ld found sf) ∨
      st.procs i = .asleep c ld found sf ∧ found ∉ r.wakes := by
  cases r with
  | ret s wakes out code =>
    obtain ⟨hprocs, hnot⟩ := Proc.wake_asleep h
    by_cases hij : i = j
    · subst hij
      simp [State.setProc] at hprocs
    · simp only [State.setProc, update_of_ne hij] at hprocs
      exact .inr ⟨hprocs, hnot⟩
  | sleep s ld' found' sf' =>
    simp only [State.after, State.setProc] at h
    by_cases hij : i = j
    · subst hij
      rw [update_self] at h
      cases h
      exact .inl ⟨rfl, rfl, s, rfl⟩
    · rw [update_of_ne hij] at h
      exact .inr ⟨h, by simp [Pass.wakes]⟩

/-- An entry with sleepers of which nobody is woken keeps its lock and, as long as its counter does
not come round, its flag. -/
def Kept (s : Sys) (counts : Prop) (vp : Nat) (f : Filock) : Prop :=
  ∃ f' ∈ s.filocks vp, f'.addr = f.addr ∧ f'.set = f.set ∧ (counts → f'.stat.wakeflg ≠ 0)

variable {f : Filock}

theorem Kept.of_mem {s : Sys} {counts : Prop} {vp : Nat} (hf : f ∈ s.filocks vp)
    (hflg : f.stat.wakeflg ≠ 0) : Kept s counts vp f :=
  ⟨f, hf, rfl, rfl, fun _ => hflg⟩

theorem stretch_kept {k : Kmem} {fuel : Nat} {c : Call} {e : Entry} (hst : StateOk st)
    (hen : Enabled st i c e) (hrun : stretch k fuel c st.sys e = some r) {vp : Nat} (hf : f ∈ st.sys.filocks vp) (hflg : f.stat.wakeflg ≠ 0) (hnot : f.addr ∉ r.wakes) :
    Kept r.sys (Counts k st (.run i c e)) vp f := by
  obtain ⟨s₁, -, hs₁, hsame, hend⟩ := stretch_sys hst.sys (hen.ok hst) hrun
  rw [← hsame] at hf
  rcases hend with ⟨ld, r₁, hstart, hr, hcase, rfl⟩ | ⟨-, out, code, rfl⟩
  · rw [Pass.restore_wakes] at hnot
    rw [Pass.restore_sys]
    rcases hcase.entry hf hflg with hin | hwoken | ⟨found, hsleeps, hvp, hin⟩
    · exact Kept.of_mem hin hflg
    · exact absurd hwoken hnot
    · refine ⟨_, hin, (counted_eq found f).1, (counted_eq found f).2, fun hcounts => ?_⟩
      by_cases haddr : f.addr = found.addr
      · have heq := (hs₁.wf c.vp).ne_of_addr (hvp ▸ hf) hsleeps.waits.mem haddr
        rw [counted, if_pos haddr, heq]
        exact hcounts s₁ ld fuel found hstart hsleeps
      · rw [counted, if_neg haddr]
        exact hflg
  · exact Kept.of_mem hf hflg

theorem cleanlocks_kept {s : Sys} {counts : Prop} {vp vp' : Nat} {pid sysid : Int} {l : List Filock}
    {mem : Mem} {wakes : List Nat} (hs : SysOk s)
    (hclean : cleanlocks pid sysid (s.filocks vp') s.mem = (l, mem, wakes)) (hf : f ∈ s.filocks vp)
    (hflg : f.stat.wakeflg ≠ 0) (hnot : f.addr ∉ wakes) : Kept (s.setFilocks vp' l mem) counts vp f := by
  refine Kept.of_mem ?_ hflg
  by_cases hvp : vp = vp'
  · subst hvp
    simp only [Sys.setFilocks, update_self]
    rcases (cleanlocks_ok hs hclean).2.2 f hf with hin | hzero | hwoken
    · exact hin
    · exact absurd hzero hflg
    · exact absurd hwoken hnot
  · simpa only [Sys.setFilocks, update_of_ne hvp] using hf

theorem sleep_entry {k : Kmem} {fuel : Nat} {c : Call} {e : Entry} {s : Sys} {ld : Flock}
    (hst : StateOk st) (hen : Enabled st i c e)
    (hrun : stretch k fuel c st.sys e = some (.sleep s ld found sf))
    (hcounts : Counts k st (.run i c e)) :
    ∃ f ∈ s.filocks c.vp, f.addr = found ∧ Blocks c.xenix ld f ∧ f.stat.wakeflg ≠ 0 := by
  obtain ⟨s₁, -, hs₁, -, ⟨ld', r₁, hstart, hr, hcase, heq⟩ | ⟨-, out, code, heq⟩⟩ :=
    stretch_sys hst.sys (hen.ok hst) hrun
  · cases hcase with
    | slept hw halloc hremote =>
      cases heq
      rename_i f
      have hset := (counted_eq f f).2
      refine ⟨counted f f, ?_, (counted_eq f f).1, ?_, ?_⟩
      · simp only [Sys.setFilocks, update_self]
        exact mem_map_of_mem hw.mem
      · rw [Blocks, hset]
        exact hw.blocks
      · rw [counted, if_pos rfl]
        exact hcounts s₁ _ fuel f hstart ⟨hw, halloc, hremote⟩
    | _ => exact absurd heq (by simp [Pass.restore, rmPass])
  · exact absurd heq (by simp)

/-- Whoever is asleep after a step has just gone to sleep, or has been asleep on an entry that the
step has kept. -/
theorem step_asleep {k : Kmem} {st' : State} {event : Event} (hst : StateOk st) (h : Step k st event st')
    {c : Call} {ld : Flock} (hasleep : st'.procs i = .asleep c ld found sf) :
    (Counts k st event → (Proc.asleep c ld found sf).Awaited st'.sys) ∧
        st.procs i ≠ .asleep c ld found sf ∨
      st.procs i = .asleep c ld found sf ∧ ∀ f ∈ st.sys.filocks c.vp, f.addr = found →
        f.stat.wakeflg ≠ 0 → Kept st'.sys (Counts k st event) c.vp f := by
  rcases step_cases h with ⟨j, c', e, fuel, r, rfl, hen, hrun, rfl⟩ |
    ⟨j, c', ld', found', sf', rfl, hready, rfl⟩ | ⟨vp, pid, sysid, l, mem, wakes, rfl, hclean, rfl⟩
  · rcases State.after_asleep hasleep with ⟨rfl, rfl, s, rfl⟩ | ⟨hbefore, hnot⟩
    · refine .inl ⟨sleep_entry hst hen hrun, fun hbefore => ?_⟩
      cases e with
      | call _ => exact absurd (hbefore.symm.trans hen) (by simp)
      | awake _ _ _ => exact absurd (hbefore.symm.trans hen) (by simp)
    · refine .inr ⟨hbefore, fun f hf haddr hflg => ?_⟩
      rw [State.after_sys]
      exact stretch_kept hst hen hrun hf hflg (haddr ▸ hnot)
  · by_cases hij : i = j
    · subst hij
      simp [State.setProc] at hasleep
    · simp only [State.setProc, update_of_ne hij] at hasleep
      exact .inr ⟨hasleep, fun f hf _ hflg => Kept.of_mem hf hflg⟩
  · obtain ⟨hbefore, hnot⟩ := Proc.wake_asleep hasleep
    refine .inr ⟨hbefore, fun f hf haddr hflg => ?_⟩
    exact cleanlocks_kept hst.sys hclean hf hflg (haddr ▸ hnot)

theorem AwaitOk.step {k : Kmem} {st' : State} {event : Event} (hst : AwaitOk st)
    (h : Guarded (Step k) (Counts k) st event st') : AwaitOk st' := by
  refine ⟨hst.ok.step h.2, fun i => ?_⟩
  cases hproc : st'.procs i with
  | idle => trivial
  | ready _ _ _ _ => trivial
  | asleep c ld found sf =>
    rcases step_asleep hst.ok h.2 hproc with ⟨hnew, -⟩ | ⟨hbefore, hkept⟩
    · exact hnew h.1
    have hawaited := hst.awaited i
    rw [hbefore] at hawaited
    obtain ⟨f, hf, haddr, hblocks, hflg⟩ := hawaited
    obtain ⟨f', hf', haddr', hset, hflg'⟩ := hkept f hf haddr hflg
    refine ⟨f', hf', haddr'.trans haddr, ?_, hflg' h.1⟩
    rw [Blocks, hset]
    exact hblocks

/-- As long as no counter of sleepers comes round to zero, whoever is asleep sleeps on an entry that
is there, blocks the request and has its flag set; and a step after which it is still asleep has not
changed the lock of that entry. -/
theorem no_lost_wakeup {k : Kmem} {events : List Event} {st : State}
    (h : Exec (Guarded (Step k) (Counts k)) initial events st) :
    ∀ i c ld found sf, st.procs i = .asleep c ld found sf →
      (∃ f ∈ st.sys.filocks c.vp, f.addr = found ∧ Blocks c.xenix ld f ∧ f.stat.wakeflg ≠ 0) ∧
        ∀ event st', Step k st event st' → st'.procs i = .asleep c ld found sf →
          ∃ f ∈ st.sys.filocks c.vp, ∃ f' ∈ st'.sys.filocks c.vp,
            f.addr = found ∧ f'.addr = found ∧ f'.set = f.set := by
  intro i c ld found sf hasleep
  have hst : AwaitOk st := h.invariant (fun _ _ _ hst hstep => hst.step hstep) AwaitOk.initial
  have hawaited := hst.awaited i
  rw [hasleep] at hawaited
  refine ⟨hawaited, fun event st' hstep hstill => ?_⟩
  obtain ⟨f, hf, haddr, -, hflg⟩ := hawaited
  rcases step_asleep hst.ok hstep hstill with ⟨-, hnew⟩ | ⟨-, hkept⟩
  · exact absurd hasleep hnew
  · obtain ⟨f', hf', haddr', hset, -⟩ := hkept f hf haddr hflg
    exact ⟨f, hf, f', hf', haddr, haddr'.trans haddr, hset⟩

def fcntlSetlkw : Call :=
  ⟨0, ⟨false, true, true, false⟩, true, true, 0, .ok 0, ⟨false, false, false, false⟩⟩

def firstByte (pid : Int) : Flock := ⟨.wrlck, 0, 0, 0, 0, pid⟩

/-- Process 1 has the first byte locked, and sleeping on that has been given up `n` times. -/
structure GivenUp (n : Nat) (st : State) : Prop where
  list : st.sys.filocks 0 = [⟨1, firstByte 1, ⟨int32 n, 0⟩⟩]
  sleeplcks : st.sys.sleeplcks = []
  mem : st.sys.mem = ⟨1, n + 1, [1]⟩
  idle : st.procs 1 = .idle

theorem givenUp_zero : ∃ r, stretch plentiful 1 fcntlSetlkw initial.sys
    (.call { firstByte 1 with lEnd := 1 }) = some r ∧ GivenUp 0 (initial.after 0 fcntlSetlkw r) :=
  ⟨_, rfl, rfl, rfl, rfl, rfl⟩

/-- Process 2 goes to sleep on it. -/
theorem GivenUp.sleep {n : Nat} (h : GivenUp n st) :
    ∃ s, stretch plentiful 1 fcntlSetlkw st.sys (.call { firstByte 2 with lEnd := 1 }) =
        some (.sleep s (firstByte 2) 1 2) ∧
      s.filocks 0 = [⟨1, firstByte 1, ⟨int32 (int32 n + 1), 0⟩⟩] ∧
      s.sleeplcks = [⟨2, firstByte 2, ⟨0, 1⟩⟩] ∧ s.mem = ⟨2, n + 2, [2, 1]⟩ := by
  have hstart : passStart fcntlSetlkw st.sys (.call { firstByte 2 with lEnd := 1 }) =
      some (st.sys, firstByte 2) := rfl
  have hblk : blocked fcntlSetlkw.xenix (st.sys.filocks fcntlSetlkw.vp) (firstByte 2) =
      (some ⟨1, firstByte 1, ⟨int32 n, 0⟩⟩, none) := by
    rw [show st.sys.filocks fcntlSetlkw.vp = _ from h.list]
    rfl
  have hdead : deadflck st.sys.sleeplcks (firstByte 2) 1 (firstByte 1).owner = some false := by
    rw [h.sleeplcks]
    rfl
  have hins : insflck plentiful st.sys.mem st.sys.sleeplcks (firstByte 2) none =
      (⟨2, n + 2, [2, 1]⟩, some (2, [⟨2, firstByte 2, ⟨0, 0⟩⟩])) := by
    rw [h.sleeplcks, h.mem]
    rfl
  refine ⟨(st.sys.setSleeplcks [⟨2, firstByte 2, ⟨0, 1⟩⟩] ⟨2, n + 2, [2, 1]⟩).setFilocks 0
    (countSleeper (st.sys.filocks 0) ⟨1, firstByte 1, ⟨int32 n, 0⟩⟩) ⟨2, n + 2, [2, 1]⟩,
    ?_, ?_, rfl, rfl⟩
  · rw [stretch_of_passStart hstart, show pass plentiful 1 fcntlSetlkw st.sys (firstByte 2) =
      lockPass plentiful 1 fcntlSetlkw st.sys (firstByte 2) from rfl, lockPass, hblk]
    simp only [if_pos (show fcntlSetlkw.cmd.slpflck = true from rfl)]
    rw [hdead]
    simp only [waitPass, hins]
    rfl
  · simp only [Sys.setFilocks, update_self, h.list, countSleeper, map_singleton, counted, if_true]

theorem GivenUp.next {n : Nat} (h : GivenUp n st) :
    ∃ events st', Exec (Step plentiful) st events st' ∧ GivenUp (n + 1) st' := by
  obtain ⟨s, hsleep, hlist, hsleeplcks, hmem⟩ := h.sleep
  have hcall := Step.call h.idle hsleep
  have hasleep : (st.after 1 fcntlSetlkw (.sleep s (firstByte 2) 1 2)).procs 1 =
      .asleep fcntlSetlkw (firstByte 2) 1 2 := by
    simp [State.after, State.setProc]
  have hdrop : dropSleeper s 2 = some (s.setSleeplcks [] ⟨1, n + 2, [1]⟩) := by
    rw [dropSleeper, hsleeplcks, hmem]
    rfl
  have hintr : stretch plentiful 1 fcntlSetlkw s (.awake (firstByte 2) 2 true) =
      some (.ret (s.setSleeplcks [] ⟨1, n + 2, [1]⟩) [] (restoreLen (firstByte 2)) (some .eintr)) := by
    simp only [stretch, hdrop]
    rfl
  refine ⟨_, _, ((Exec.single hcall).snoc (Step.signal hasleep)).snoc
    (Step.awake (update_self ..) hintr), ?_, rfl, rfl, ?_⟩
  · show s.filocks 0 = _
    rw [hlist, int32, int32, Int.bmod_add_bmod]
    rfl
  · simp [State.after, State.setProc, State.wake, Proc.wake]

theorem no_lost_wakeup_one_sleeper :
    ∃ st, (∃ events, Exec (Guarded (Step plentiful) (Counts plentiful)) initial events st) ∧
      st.procs 1 = .asleep fcntlSetlkw (firstByte 2) 1 2 ∧
      ∃ f ∈ st.sys.filocks 0, f.addr = 1 ∧ f.stat.wakeflg ≠ 0 := by
  obtain ⟨r, hr, hzero⟩ := givenUp_zero
  obtain ⟨s, hsleep, -⟩ := hzero.sleep
  have hfirst : Counts plentiful initial
      (.run 0 fcntlSetlkw (.call { firstByte 1 with lEnd := 1 })) := by
    intro s₁ ld fuel found hstart hsleeps
    cases hstart
    exact absurd hsleeps.waits.mem not_mem_nil
  have hsecond : Counts plentiful (initial.after 0 fcntlSetlkw r)
      (.run 1 fcntlSetlkw (.call { firstByte 2 with lEnd := 1 })) := by
    intro s₁ ld fuel found hstart hsleeps
    cases hstart
    have hfound := hsleeps.waits.mem
    rw [show (initial.after 0 fcntlSetlkw r).sys.filocks fcntlSetlkw.vp = _ from hzero.list,
      mem_singleton] at hfound
    subst hfound
    decide
  have hasleep : ((initial.after 0 fcntlSetlkw r).after 1 fcntlSetlkw
      (.sleep s (firstByte 2) 1 2)).procs 1 = .asleep fcntlSetlkw (firstByte 2) 1 2 := by
    simp [State.after, State.setProc]
  have hrun : Exec (Guarded (Step plentiful) (Counts plentiful)) initial _ _ :=
    (Exec.single ⟨hfirst, Step.call rfl hr⟩).snoc ⟨hsecond, Step.call hzero.idle hsleep⟩
  obtain ⟨⟨f, hf, haddr, -, hflg⟩, -⟩ := no_lost_wakeup hrun _ _ _ _ _ hasleep
  exact ⟨_, ⟨_, hrun⟩, hasleep, f, hf, haddr, hflg⟩

theorem givenUp_run (n : Nat) : ∃ events st, Exec (Step plentiful) initial events st ∧ GivenUp n st := by
  induction n with
  | zero =>
    obtain ⟨r, hr, hzero⟩ := givenUp_zero
    exact ⟨_, _, Exec.single (Step.call rfl hr), hzero⟩
  | succ n ih =>
    obtain ⟨events, st, hrun, hst⟩ := ih
    obtain ⟨events', st', hrun', hst'⟩ := hst.next
    exact ⟨_, st', hrun.append hrun', hst'⟩

/-- After 2^32 - 1 sleeps given up, the next one leaves the counter at zero. -/
theorem wakeup_lost : ¬ ∀ k events st, Exec (Step k) initial events st →
      ∀ i c ld found sf, st.procs i = .asleep c ld found sf →
        ∃ f ∈ st.sys.filocks c.vp, f.addr = found ∧ Blocks c.xenix ld f ∧ f.stat.wakeflg ≠ 0 := by
  intro h
  obtain ⟨events, st, hrun, hst⟩ := givenUp_run 0xffffffff
  obtain ⟨s, hsleep, hlist, -, -⟩ := hst.sleep
  have hasleep : (st.after 1 fcntlSetlkw (.sleep s (firstByte 2) 1 2)).procs 1 =
      .asleep fcntlSetlkw (firstByte 2) 1 2 := by
    simp [State.after, State.setProc]
  obtain ⟨f, hf, -, -, hflg⟩ := h _ _ _ (hrun.snoc (Step.call hst.idle hsleep)) _ _ _ _ _ hasleep
  rw [State.after_sys] at hf
  have hf' : f ∈ s.filocks 0 := hf
  rw [hlist, mem_singleton] at hf'
  subst hf'
  exact hflg (by decide)

end Svr42.Flck
