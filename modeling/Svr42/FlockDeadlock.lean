import Svr42.FlockRuns
import Svr42.PartialWalk

/-! The walk of `deadflck` along `sleeplcks`. A refusal with EDEADLK keeps the walks free of cycles;
what can close one is the removal of an entry that hides an older one of its owner. -/

namespace Svr42.Flck
open List Option

open Relation

/-- The owner that the walk goes on to from `o`: the first entry of `o` counts. -/
def blockerOf (sleeplcks : List Filock) (o : Int × Int) : Option (Int × Int) :=
  (sleeplcks.find? fun sf => sf.set.owner = o).map fun sf => sf.stat.blk

variable {fuel : Nat} {k : Kmem} {c : Call} {s : Sys}

section

variable {l : List Filock} {ld : Flock} {o : Int × Int}

theorem deadflck_succ (fuel : Nat) : deadflck l ld (fuel + 1) o = if o = ld.owner then some true
      else match blockerOf l o with
        | none => some false
        | some blk => deadflck l ld fuel blk := by
  rw [deadflck, blockerOf]
  cases l.find? fun sf => sf.set.owner = o <;> rfl

theorem not_reaches_of_deadflck (h : deadflck l ld fuel o = some false) :
    ¬ ReflTransGen (Follows (blockerOf l)) o ld.owner := by
  induction fuel generalizing o with
  | zero => exact absurd h (by simp [deadflck])
  | succ fuel ih =>
    rw [deadflck_succ] at h
    split_ifs at h with ho
    · exact absurd h (by simp)
    · intro hreach
      rcases ReflTransGen.cases_head hreach with heq | ⟨blk, hstep, hrest⟩
      · exact ho heq
      · rw [show blockerOf l o = some blk from hstep] at h
        exact ih h hrest

theorem noCycle_sleeper {found : Filock} (h : NoCycle (blockerOf s.sleeplcks))
    (hw : Waits fuel c s ld found) : NoCycle (blockerOf (sleeper k s.mem ld found :: s.sleeplcks)) := by
  refine h.insert (p := ld.owner) (q := found.set.owner) ?_ (fun o ho => ?_)
    (not_reaches_of_deadflck hw.alive)
  · rw [blockerOf, find?_cons_of_pos (by simp [sleeper, newEntry])]
    rfl
  · rw [blockerOf, find?_cons_of_neg]
    · rfl
    · exact fun howner => ho (of_decide_eq_true howner).symm

end

/-! ### Removals -/

def Uncovers (l l' : List Filock) : Prop :=
  ∃ o sf, l.find? (fun sf => sf.set.owner = o) = some sf ∧ sf ∉ l' ∧
    TransGen (Follows (blockerOf l')) o o

/-- The first entry that is left of an owner is the first of all, unless that has been removed. -/
theorem find?_filter_of_keep {l : List Filock} {p keep : Filock → Bool} {sf : Filock}
    (hfind : l.find? p = some sf) (hkeep : keep sf = true) : (l.filter keep).find? p = some sf := by
  induction l with
  | nil => exact absurd hfind (by simp)
  | cons f l ih =>
    by_cases hp : p f = true
    · rw [find?_cons_of_pos hp, some.injEq] at hfind
      subst hfind
      rw [filter_cons_of_pos hkeep, find?_cons_of_pos hp]
    rw [find?_cons_of_neg hp] at hfind
    by_cases hk : keep f = true
    · rw [filter_cons_of_pos hk, find?_cons_of_neg hp]
      exact ih hfind
    · rw [filter_cons_of_neg hk]
      exact ih hfind

theorem noCycle_filter {l : List Filock} (keep : Filock → Bool) (h : NoCycle (blockerOf l))
    (hsafe : ¬ Uncovers l (l.filter keep)) : NoCycle (blockerOf (l.filter keep)) := by
  refine h.of_agree fun o hcycle => ?_
  obtain ⟨blk, hstep, -⟩ := TransGen.head'_iff.mp hcycle
  obtain ⟨sf', hfind', -⟩ := map_eq_some_iff.mp hstep
  cases hfind : l.find? fun sf => sf.set.owner = o with
  | none =>
    have howner := find?_some hfind'
    have hin := (mem_filter.mp (mem_of_find?_eq_some hfind')).1
    exact absurd howner (find?_eq_none.mp hfind sf' hin)
  | some sf =>
    have hleft : sf ∈ l.filter keep := by
      by_contra hgone
      exact hsafe ⟨o, sf, hfind, hgone, hcycle⟩
    rw [blockerOf, blockerOf, hfind, find?_filter_of_keep hfind (mem_filter.mp hleft).2]

theorem PassCase.sleeplcks {ld : Flock} {r : Pass} (h : PassCase k fuel c s ld r) (hs : SysOk s)
    (hr : Request ld) : (∃ keep, r.sys.sleeplcks = s.sleeplcks.filter keep) ∨
      ∃ found, Waits fuel c s ld found ∧ r.sys.sleeplcks = sleeper k s.mem ld found :: s.sleeplcks := by
  have hall : s.sleeplcks = s.sleeplcks.filter fun _ => true := (filter_true _).symm
  have hrm : ∀ s' : Sys, SysOk s' → s'.sleeplcks = s.sleeplcks → ∀ wakes out code,
      ∃ keep, (rmPass s' wakes out code).sys.sleeplcks = s.sleeplcks.filter keep := by
    intro s' hs' hsame wakes out code
    refine ⟨fun f => !rmMatch out f, ?_⟩
    rw [← hsame]
    exact (delAll_ok (rmMatch out) hs'.sleepers (hs'.used none)).1
  cases h with
  | unchanged _ => exact .inl ⟨_, hall⟩
  | tested _ => exact .inl (hrm s hs rfl _ _ _)
  | adjusted _ => exact .inl ⟨_, hall⟩
  | adjustedRemote ha => exact .inl (hrm _ (ha.sysOk hs hr) rfl _ _ _)
  | noSleeper _ => exact .inl ⟨_, hall⟩
  | queued hw _ => exact .inr ⟨_, hw, rfl⟩
  | slept hw _ _ => exact .inr ⟨_, hw, rfl⟩

variable {e : Entry}

theorem Entry.begin_sleeplcks {s₁ : Sys} (hs : SysOk s) (h : e.begin s = some s₁) :
    ∃ keep, s₁.sleeplcks = s.sleeplcks.filter keep := by
  cases e with
  | call _ =>
    cases h
    exact ⟨fun _ => true, (filter_true _).symm⟩
  | awake _ sf _ =>
    obtain ⟨f, -, -, rfl⟩ := dropSleeper_eq h
    exact ⟨_, delflck_eq_filter hs.sleepers f⟩

theorem noCycle_begin {s₁ : Sys} (hs : SysOk s) (h : e.begin s = some s₁)
    (hcycle : NoCycle (blockerOf s.sleeplcks)) (hsafe : ¬ Uncovers s.sleeplcks s₁.sleeplcks) :
    NoCycle (blockerOf s₁.sleeplcks) := by
  obtain ⟨keep, hleft⟩ := Entry.begin_sleeplcks hs h
  rw [hleft] at hsafe ⊢
  exact noCycle_filter keep hcycle hsafe

/-! ### Runs -/

/-- No removal of the step, at the end of a sleep or by `RM_SLEEPLCKS`, closes a cycle. -/
def Steady (k : Kmem) (st : State) : Event → Prop
  | .run _ c e => ∀ s₁, e.begin st.sys = some s₁ →
      ¬ Uncovers st.sys.sleeplcks s₁.sleeplcks ∧
        ∀ fuel r, stretch k fuel c st.sys e = some r → ¬ Uncovers s₁.sleeplcks r.sys.sleeplcks
  | _ => True

/-- The invariant of such runs. -/
structure SteadyOk (st : State) : Prop where
  ok : StateOk st
  noCycle : NoCycle (blockerOf st.sys.sleeplcks)

theorem SteadyOk.initial : SteadyOk initial := by
  refine ⟨StateOk.initial, fun o hcycle => ?_⟩
  obtain ⟨b, hstep, -⟩ := TransGen.head'_iff.mp hcycle
  exact absurd hstep (by simp [Follows, blockerOf, Flck.initial])

theorem SteadyOk.step {st st' : State} {event : Event} (hst : SteadyOk st)
    (h : Guarded (Step k) (Steady k) st event st') : SteadyOk st' := by
  obtain ⟨hsteady, hstep⟩ := h
  refine ⟨hst.ok.step hstep, ?_⟩
  rcases step_cases hstep with ⟨i, c, e, fuel, r, rfl, hen, hrun, rfl⟩ |
    ⟨i, c, ld, found, sf, rfl, -, rfl⟩ | ⟨vp, pid, sysid, l, mem, wakes, rfl, -, rfl⟩
  · obtain ⟨s₁, hbegin, hs₁, -, hend⟩ := stretch_sys hst.ok.sys (hen.ok hst.ok) hrun
    obtain ⟨hdrop, hpass⟩ := hsteady s₁ hbegin
    have hcycle₁ := noCycle_begin hst.ok.sys hbegin hst.noCycle hdrop
    have hpass := hpass fuel r hrun
    rw [State.after_sys]
    rcases hend with ⟨ld, r₁, -, hr, hcase, rfl⟩ | ⟨-, out, code, rfl⟩
    · rw [Pass.restore_sys] at hpass ⊢
      rcases hcase.sleeplcks hs₁ hr with ⟨keep, hleft⟩ | ⟨found, hw, hnew⟩
      · rw [hleft] at hpass ⊢
        exact noCycle_filter keep hcycle₁ hpass
      · rw [hnew]
        exact noCycle_sleeper hcycle₁ hw
    · exact hcycle₁
  · exact hst.noCycle
  · exact hst.noCycle

def remoteSetlkw : Call :=
  ⟨0, ⟨false, true, true, true⟩, true, true, 0, .ok 0, ⟨false, false, false, false⟩⟩

def remoteByte (lType : LType) (start pid : Int) : Flock := ⟨lType, 0, start, 1, 1, pid⟩

/-- Process 1 holds byte 20 and waits for byte 0 of process 2, then for byte 10 of process 3; process
2 waits for process 1. When process 1 gets byte 10, its older entry comes first again. -/
def crossing : List (Call × Flock) :=
  [remoteByte .wrlck 0 2, remoteByte .wrlck 10 3, remoteByte .wrlck 20 1, remoteByte .wrlck 0 1,
    remoteByte .wrlck 10 1, remoteByte .wrlck 20 2, remoteByte .unlck 10 3,
    remoteByte .wrlck 10 1].map fun lckdat => (remoteSetlkw, lckdat)

end Svr42.Flck
