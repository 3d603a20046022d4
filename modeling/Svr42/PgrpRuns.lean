import Svr42.PgrpProcs

/-! The orphaned flags in every run. -/

namespace Svr42.Pgrp
open Function List Option

open Disp (Stat)

variable {Ptr : Type} {s t : Sys Ptr} {p q m procInit : Ptr} {G H g : Pid} {acc : Access}

/-- `run` is what the rest of the kernel does to a process that is no zombie. -/
inductive Event (Ptr : Type) where
  | fork (pp cp : Ptr) (pid : Pid)
  | setpgid (p : Ptr) (pid pgid : Pid) (acc : Access)
  | setsid (p : Ptr) (sp : Nat)
  | setpgrp (p : Ptr) (sp : Nat)
  | exit (p : Ptr)
  | freeproc (p : Ptr)
  | run (p : Ptr) (pStat : Stat) (pWhystop : Nat) (sexeced : Bool)

def Calls (s : Sys Ptr) (p : Ptr) : Prop := (s.proc p).pPgidp ≠ none ∧ zombie s p = false

/-- A session that is created is one that no process is in; process 0, whose child `init` is, does
not exit, and nor does `init`. -/
def Enabled (procInit : Ptr) (s : Sys Ptr) : Event Ptr → Prop
  | .fork pp cp pid => Forks s pp cp pid
  | .setpgid p _ _ _ => Calls s p
  | .setsid p sp => Calls s p ∧ FreshSess s sp
  | .setpgrp p sp => Calls s p ∧ FreshSess s sp
  | .exit p => Exits s procInit p
  | .freeproc p => (s.proc p).pPgidp ≠ none ∧ zombie s p = true
  | .run p pStat _ _ => Calls s p ∧ pStat ≠ .szomb

/-- At boot process 0 is the only process. -/
structure Booted [DecidableEq Ptr] (s : Sys Ptr) (proc0 : Ptr) : Prop where
  pglink : ∀ g, (s.group g).pglink = if g = 0 then [proc0] else []
  pgorphaned : (s.group 0).pgorphaned = true
  pPgidp : ∀ m, (s.proc m).pPgidp = if m = proc0 then some 0 else none
  pParent : (s.proc proc0).pParent = none
  pChild : ∀ m, (s.proc m).pChild = []

theorem only_member (hs : Books s) (hp : Calls s p) (hnone : pgmembers s (s.proc p).pPidp = false) :
    ∀ m ∈ (s.group (s.proc p).pPidp).pglink, m = p := by
  intro m hm
  have hpid := any_eq_false.mp hnone m hm
  refine hs.pid m p ?_ hp.1 (by simpa using hpid)
  rw [hs.mem_pgidp hm]
  exact some_ne_none _

theorem setpgidProc_here (hs : Books s) (hp : Calls s p) {pid : Pid}
    (h : setpgidProc s p pid acc = .ok q) : (s.proc q).pPgidp ≠ none := by
  unfold setpgidProc at h
  split_ifs at h with hzero hbad hown
  · exact Except.ok.inj h ▸ hp.1
  · exact Except.ok.inj h ▸ hp.1
  · cases hfind : (s.proc p).pChild.find? fun q => (s.proc q).pPidp = pid with
    | none =>
      rw [hfind] at h
      exact absurd h (by simp)
    | some c =>
      rw [hfind] at h
      have hchild := ((hs.child p c).mp (mem_of_find?_eq_some hfind)).2
      dsimp only at h
      split_ifs at h
      cases hacc : acc.proc with
      | none =>
        rw [hacc] at h
        exact Except.ok.inj h ▸ hchild
      | some error =>
        rw [hacc] at h
        exact absurd h (by simp)

/-- The group is another one than the one the process is in. -/
theorem setpgidGroup_ne (hs : Books s) {pgid : Pid} (h : setpgidGroup s q pgid acc = .ok (some H)) :
    (s.proc q).pPgidp ≠ some H := by
  unfold setpgidGroup at h
  by_cases hleader : s.sSid (s.proc q).pSessp = (s.proc q).pPidp
  · rw [if_pos hleader] at h
    exact absurd h (by simp)
  by_cases hbad : pgid < 0 ∨ pgid ≥ MAXPID
  · rw [if_neg hleader, if_pos hbad] at h
    exact absurd h (by simp)
  rw [if_neg hleader, if_neg hbad] at h
  dsimp only at h
  generalize (if pgid = 0 then (s.proc q).pPidp else pgid) = i at h
  split_ifs at h with hin hown
  · exact absurd (Except.ok.inj h) (by simp)
  · obtain rfl := some.inj (Except.ok.inj h)
    exact hin
  · cases hfind : pgfind s i with
    | none =>
      rw [hfind] at h
      exact absurd h (by simp)
    | some r =>
      rw [hfind] at h
      have hr : (s.proc r).pPgidp = some i := hs.mem_pgidp (mem_of_mem_head? hfind)
      dsimp only at h
      split_ifs at h
      cases hacc : acc.group with
      | none =>
        rw [hacc] at h
        rw [← Except.ok.inj h, hr]
        exact hin
      | some error =>
        rw [hacc] at h
        exact absurd h (by simp)

/-- Nothing differs that matters to groups and sessions. -/
structure Alike (s t : Sys Ptr) : Prop where
  same : ∀ m, (t.proc m).pPidp = (s.proc m).pPidp ∧ (t.proc m).pPgidp = (s.proc m).pPgidp ∧
    (t.proc m).pSessp = (s.proc m).pSessp ∧ (t.proc m).pParent = (s.proc m).pParent ∧
    (t.proc m).pChild = (s.proc m).pChild
  zombie : ∀ m, zombie t m = zombie s m
  group : t.group = s.group

theorem Alike.books (h : Alike s t) (hs : Books s) : Books t where
  member m g := by rw [h.group, (h.same m).2.1, hs.member]
  nodup g := by
    rw [h.group]
    exact hs.nodup g
  child q c := by rw [(h.same q).2.2.2.2, (h.same c).2.2.2.1, (h.same c).2.1, hs.child]
  childNodup q := by
    rw [(h.same q).2.2.2.2]
    exact hs.childNodup q
  pid q r := by
    rw [(h.same q).1, (h.same r).1, (h.same q).2.1, (h.same r).2.1]
    exact hs.pid q r
  parent c q hc hq := by
    rw [(h.same c).2.1] at hc
    rw [(h.same c).2.2.2.1] at hq
    rw [(h.same q).2.1, ← zombie_eq_false, h.zombie, zombie_eq_false]
    exact hs.parent c q hc hq

theorem Alike.right (h : Alike s t) (hright : AllRight s) : AllRight t := by
  have hlinked : ∀ m, pglinked t m = pglinked s m := fun m =>
    pglinked_congr (h.same m).2.2.2.1 ⟨(h.same m).2.1, (h.same m).2.2.1⟩
      fun q _ => ⟨(h.same q).2.1, (h.same q).2.2.1⟩
  intro g
  unfold Right Anchored
  simp only [h.group, h.zombie, hlinked]
  exact hright g

variable [DecidableEq Ptr]

def call (procInit : Ptr) (s : Sys Ptr) : Event Ptr → Sys Ptr
  | .fork pp cp pid => fork s pp cp pid
  | .setpgid p pid pgid acc => (setpgid s p pid pgid acc).2
  | .setsid p sp => (setsid s p sp).2
  | .setpgrp p sp => setpgrp s p sp
  | .exit p => exit procInit s p
  | .freeproc p => freeproc s p
  | .run p pStat pWhystop sexeced =>
      setProc s p
        { s.proc p with pStat := pStat, pWhystop := pWhystop, sexeced := sexeced }

def Step (procInit : Ptr) (s : Sys Ptr) (event : Event Ptr) (t : Sys Ptr) : Prop :=
  Enabled procInit s event ∧ call procInit s event = t

/-- What the call does not look at does not matter. -/
def Heeds (procInit : Ptr) (s : Sys Ptr) : Event Ptr → Prop
  | .setpgid p pid pgid acc => ∀ q H, setpgidProc s p pid acc = .ok q →
      setpgidGroup s q pgid acc = .ok (some H) → ChangeHeeds s q H
  | .setsid p _ => (s.proc p).pPgidp ≠ some (s.proc p).pPidp →
      pgmembers s (s.proc p).pPidp = false → SessHeeds s p
  | .setpgrp p _ => s.sSid (s.proc p).pSessp ≠ (s.proc p).pPidp →
      pgmembers s (s.proc p).pPidp = false → SessHeeds s p
  | .exit p => ExitHeeds s procInit p
  | _ => True

theorem Booted.books {proc0 : Ptr} (h : Booted s proc0) : Books s where
  member m g := by
    rw [h.pglink, h.pPgidp]
    split_ifs with hg hm hm
    · simp [hg, hm]
    · simp [hm]
    · simp [Ne.symm hg]
    · simp
  nodup g := by
    rw [h.pglink]
    split_ifs
    · exact nodup_singleton proc0
    · exact nodup_nil
  child q c := by
    rw [h.pChild, h.pPgidp]
    refine iff_of_false not_mem_nil ?_
    rintro ⟨hparent, hhere⟩
    split_ifs at hhere with hc
    · rw [hc, h.pParent] at hparent
      exact absurd hparent.symm (some_ne_none q)
    · exact hhere rfl
  childNodup q := by
    rw [h.pChild]
    exact nodup_nil
  pid q r hq hr _ := by
    rw [h.pPgidp] at hq hr
    split_ifs at hq hr with hq' hr'
    · rw [hq', hr']
    · exact absurd rfl hr
    · exact absurd rfl hq
    · exact absurd rfl hq
  parent c q hc hq := by
    rw [h.pPgidp] at hc
    split_ifs at hc with hc'
    · rw [hc', h.pParent] at hq
      exact absurd hq.symm (some_ne_none q)
    · exact absurd rfl hc

theorem Booted.right {proc0 : Ptr} (h : Booted s proc0) : AllRight s := by
  intro g hlive
  obtain ⟨m, hm, -⟩ := hlive
  rw [h.pglink] at hm
  split_ifs at hm with hg
  · subst hg
    refine iff_of_true h.pgorphaned ?_
    rintro ⟨m, hm, -, hl⟩
    rw [h.pglink, if_pos rfl, mem_singleton] at hm
    rw [hm, pglinked_none h.pParent] at hl
    exact Bool.false_ne_true hl
  · cases hm

section

variable (hs : Books s) (hright : AllRight s) (hp : Calls s p)
include hs hright hp

theorem setpgid_right {pid pgid : Pid} (hheeds : ∀ q H, setpgidProc s p pid acc = .ok q →
      setpgidGroup s q pgid acc = .ok (some H) → ChangeHeeds s q H) :
    Books (setpgid s p pid pgid acc).2 ∧ AllRight (setpgid s p pid pgid acc).2 := by
  unfold setpgid
  cases hq : setpgidProc s p pid acc with
  | error error => exact ⟨hs, hright⟩
  | ok q =>
    dsimp only
    cases hH : setpgidGroup s q pgid acc with
    | error error => exact ⟨hs, hright⟩
    | ok pgp =>
      cases pgp with
      | none => exact ⟨hs, hright⟩
      | some H =>
        obtain ⟨G, hG⟩ := ne_none_iff_exists'.mp (setpgidProc_here hs hp hq)
        have hne : H ≠ G := fun heq => setpgidGroup_ne hs hH (heq ▸ hG)
        exact ⟨change_books hs hG H, change_right hs hG hright hne (hheeds q H hq hH)⟩


variable {sp : Nat}

theorem session_right (hfresh : FreshSess s sp) (hnone : pgmembers s (s.proc p).pPidp = false)
    (hheeds : SessHeeds s p) : Books (sessCreate s p sp) ∧ AllRight (sessCreate s p sp) := by
  obtain ⟨G, hG⟩ := ne_none_iff_exists'.mp hp.1
  exact ⟨sessCreate_books hs hG sp,
    sessCreate_right hs hG hright hfresh (only_member hs hp hnone) hheeds⟩

theorem setsid_right (hfresh : FreshSess s sp) (hheeds : (s.proc p).pPgidp ≠ some (s.proc p).pPidp →
      pgmembers s (s.proc p).pPidp = false → SessHeeds s p) :
    Books (setsid s p sp).2 ∧ AllRight (setsid s p sp).2 := by
  unfold setsid
  split_ifs with hno
  · exact ⟨hs, hright⟩
  · rw [not_or, Bool.not_eq_true] at hno
    exact session_right hs hright hp hfresh hno.2 (hheeds hno.1 hno.2)

theorem setpgrp_right (hfresh : FreshSess s sp) (hheeds : s.sSid (s.proc p).pSessp ≠ (s.proc p).pPidp →
      pgmembers s (s.proc p).pPidp = false → SessHeeds s p) :
    Books (setpgrp s p sp) ∧ AllRight (setpgrp s p sp) := by
  unfold setpgrp
  split_ifs with hyes
  · rw [Bool.not_eq_true] at hyes
    exact session_right hs hright hp hfresh hyes.2 (hheeds hyes.1 hyes.2)
  · exact ⟨hs, hright⟩

theorem run_right {pStat : Stat} (hstat : pStat ≠ .szomb) (pWhystop : Nat) (sexeced : Bool) :
    Books (setProc s p { s.proc p with pStat := pStat, pWhystop := pWhystop, sexeced := sexeced }) ∧
    AllRight (setProc s p
      { s.proc p with pStat := pStat, pWhystop := pWhystop, sexeced := sexeced }) := by
  have hother : ∀ m, m ≠ p → (setProc s p { s.proc p with
      pStat := pStat, pWhystop := pWhystop, sexeced := sexeced }).proc m = s.proc m :=
    fun m hm => update_of_ne hm _ _
  have hself : (setProc s p { s.proc p with
      pStat := pStat, pWhystop := pWhystop, sexeced := sexeced }).proc p = _ :=
    update_self _ _ _
  have halike : Alike s (setProc s p { s.proc p with
      pStat := pStat, pWhystop := pWhystop, sexeced := sexeced }) := by
    refine ⟨fun m => ?_, fun m => ?_, rfl⟩
    · by_cases hm : m = p
      · rw [hm, hself]
        exact ⟨rfl, rfl, rfl, rfl, rfl⟩
      · rw [hother m hm]
        exact ⟨rfl, rfl, rfl, rfl, rfl⟩
    · by_cases hm : m = p
      · rw [hm, hp.2, zombie_eq_false, hself]
        exact hstat
      · rw [zombie, zombie, hother m hm]
  exact ⟨halike.books hs, halike.right hright⟩

end

theorem step_right {event : Event Ptr} (hs : Books s) (hright : AllRight s)
    (hheeds : Heeds procInit s event) (h : Step procInit s event t) : Books t ∧ AllRight t := by
  obtain ⟨hen, rfl⟩ := h
  cases event with
  | fork pp cp pid =>
    obtain ⟨G, hG⟩ := ne_none_iff_exists'.mp hen.here
    exact ⟨(forked_fork hen hs hG).books hen hs, fork_right hen hs hright⟩
  | setpgid p pid pgid acc => exact setpgid_right hs hright hen hheeds
  | setsid p sp => exact setsid_right hs hright hen.1 hen.2 hheeds
  | setpgrp p sp => exact setpgrp_right hs hright hen.1 hen.2 hheeds
  | exit p => exact ⟨(exited_exit hen hs).books hen hs, exit_right hen hs hright hheeds⟩
  | freeproc p =>
    obtain ⟨G, hG⟩ := ne_none_iff_exists'.mp hen.1
    have hz := of_decide_eq_true hen.2
    exact ⟨(freed_freeproc hG).1.books hs hG hz, freeproc_right hs hright hG hz⟩
  | run p pStat pWhystop sexeced => exact run_right hs hright hen.1 hen.2 pWhystop sexeced

/-- In every run in which no step does what the calls do not look at, the flag of every group that
has a member that is no zombie is set exactly if nothing anchors it. -/
theorem orphaned_run {proc0 : Ptr} {events : List (Event Ptr)} (hs : Booted s proc0)
    (hrun : Exec (Guarded (Step procInit) (Heeds procInit)) s events t) : ∀ g, Right t g :=
  (hrun.keeps (fun s => Books s ∧ AllRight s)
    (fun _ _ _ hs hstep => step_right hs.1 hs.2 hstep.1 hstep.2) ⟨hs.books, hs.right⟩).2

/-- Process 0 and room for five more. -/
def boot : Sys (Fin 6) where
  proc p := ⟨if p = 0 then .srun else .sidl, 0, 0, if p = 0 then some 0 else none, 0, none, [],
    false⟩
  group g := if g = 0 then ⟨true, [0]⟩ else ⟨false, []⟩
  sSid _ := 0
  signalled := []

theorem boot_booted : Booted boot 0 where
  pglink g := by
    unfold boot
    dsimp only
    split_ifs
    · rfl
    · rfl
  pgorphaned := rfl
  pPgidp m := rfl
  pParent := rfl
  pChild _ := rfl

/-- `init` is forked and leaves the group of process 0. -/
theorem orphaned_run_boot : Right (call 1 (call 1 boot (.fork 0 1 1)) (.setsid 1 1)) 0 ∧
    Right (call 1 (call 1 boot (.fork 0 1 1)) (.setsid 1 1)) 1 := by
  have hforks : Forks boot 0 1 1 := ⟨by decide, by decide, by decide, by decide, by decide⟩
  have hen : Enabled 1 (call 1 boot (.fork 0 1 1)) (.setsid 1 1) :=
    ⟨⟨by decide, by decide⟩, by unfold FreshSess; decide⟩
  have hheeds : Heeds 1 (call 1 boot (.fork 0 1 1)) (.setsid 1 1) := by
    intro _ _ G hG hflag
    have hzero : ((call 1 boot (.fork 0 1 1)).proc 1).pPgidp = some 0 := by decide
    have hset : ((call 1 boot (.fork 0 1 1)).group 0).pgorphaned = true := by decide
    obtain rfl := some.inj (hzero.symm.trans hG)
    exact absurd (hset.symm.trans hflag) (by decide)
  have hfork : Guarded (Step 1) (Heeds 1) boot (.fork 0 1 1) (call 1 boot (.fork 0 1 1)) :=
    ⟨trivial, hforks, rfl⟩
  have hright := orphaned_run boot_booted (Exec.cons hfork (Exec.single ⟨hheeds, hen, rfl⟩))
  exact ⟨hright 0, hright 1⟩

instance (s : Sys Ptr) [Fintype Ptr] (pp cp : Ptr) (pid : Pid) : Decidable (Forks s pp cp pid) :=
  decidable_of_iff ((s.proc pp).pPgidp ≠ none ∧ zombie s pp = false ∧ (s.proc cp).pPgidp = none ∧
      (∀ m, (s.proc m).pPgidp ≠ none → (s.proc m).pPidp ≠ pid) ∧ (s.group pid).pglink = [])
    ⟨fun h => ⟨h.1, h.2.1, h.2.2.1, h.2.2.2.1, h.2.2.2.2⟩,
      fun h => ⟨h.here, h.live, h.free, h.unused, h.empty⟩⟩

instance (s : Sys Ptr) (procInit p : Ptr) : Decidable (Exits s procInit p) :=
  decidable_of_iff ((s.proc p).pPgidp ≠ none ∧ zombie s p = false ∧ p ≠ procInit ∧
      procInit ∉ (s.proc p).pChild ∧ (s.proc procInit).pPgidp ≠ none ∧
        zombie s procInit = false)
    ⟨fun h => ⟨h.1, h.2.1, h.2.2.1, h.2.2.2.1, h.2.2.2.2.1, h.2.2.2.2.2⟩,
      fun h => ⟨h.here, h.live, h.other, h.notChild, h.initHere, h.initLive⟩⟩

instance (s : Sys Ptr) (p : Ptr) : Decidable (Calls s p) := inferInstanceAs (Decidable (_ ∧ _))

instance (s : Sys Ptr) [Fintype Ptr] (sess : Nat) : Decidable (FreshSess s sess) :=
  inferInstanceAs (Decidable (∀ _, _))

instance (procInit : Ptr) (s : Sys Ptr) [Fintype Ptr] (event : Event Ptr) :
    Decidable (Enabled procInit s event) :=
  match event with
  | .fork _ _ _ => inferInstanceAs (Decidable (Forks _ _ _ _))
  | .setpgid _ _ _ _ => inferInstanceAs (Decidable (Calls _ _))
  | .setsid _ _ => inferInstanceAs (Decidable (_ ∧ _))
  | .setpgrp _ _ => inferInstanceAs (Decidable (_ ∧ _))
  | .exit _ => inferInstanceAs (Decidable (Exits _ _ _))
  | .freeproc _ => inferInstanceAs (Decidable (_ ∧ _))
  | .run _ _ _ _ => inferInstanceAs (Decidable (_ ∧ _))

def attempt [Fintype Ptr] (procInit : Ptr) (s : Sys Ptr) (event : Event Ptr) : Option (Sys Ptr) :=
  if Enabled procInit s event then some (call procInit s event) else none

theorem exec_attempt [Fintype Ptr] {events : List (Event Ptr)}
    (h : events.foldlM (attempt procInit) s = some t) : Exec (Step procInit) s events t := by
  refine (Exec.of_foldlM h).mono fun s event t hstep => ?_
  unfold attempt at hstep
  split_ifs at hstep with hen
  exact ⟨hen, some.inj hstep⟩

/-- `init` is process 1. Process 4 is in the group of process 3, whose parent is process 2, and has a
child there; when it makes a session of its own after process 3 has exited, the child is alone. -/
def leaver : List (Event (Fin 6)) :=
  [.fork 0 1 1, .fork 1 2 2, .setsid 2 1, .fork 2 3 3, .fork 2 4 4, .setpgid 3 0 0 ⟨none, none⟩,
    .setpgid 4 0 3 ⟨none, none⟩, .fork 4 5 5, .exit 3, .setsid 4 2]

/-- Then nothing anchors the group of process 5, and its flag is not set. -/
theorem sess_create_unflagged : ¬ ∀ (s t : Sys (Fin 6)) (proc0 procInit : Fin 6)
    (events : List (Event (Fin 6))), Booted s proc0 → Exec (Step procInit) s events t →
      ∀ g, Right t g := by
  intro hall
  obtain ⟨t, ht⟩ : ∃ t, leaver.foldlM (attempt 1) boot = some t :=
    isSome_iff_exists.mp (by decide +kernel)
  have hlook : (leaver.foldlM (attempt 1) boot).map (fun t => ((t.group 3).pglink,
      zombie t 5, (t.group 3).pgorphaned, zombie t 3, pglinked t 5)) =
        some ([5, 3], false, false, true, false) := by decide +kernel
  rw [ht] at hlook
  simp only [map_some, Option.some.injEq, Prod.mk.injEq] at hlook
  obtain ⟨hlist, hlive, hflag, hthree, hfive⟩ := hlook
  have hright := hall boot t 0 1 leaver boot_booted (exec_attempt ht) 3
  refine absurd ((hright ⟨5, ?_, hlive⟩).mpr ?_) (by rw [hflag]; decide)
  · rw [hlist]
    exact .head _
  · rintro ⟨m, hm, hz, hl⟩
    rw [hlist, mem_cons, mem_singleton] at hm
    rcases hm with rfl | rfl
    · exact absurd (hl.symm.trans hfive) (by decide)
    · exact absurd (hz.symm.trans hthree) (by decide)

end Svr42.Pgrp
