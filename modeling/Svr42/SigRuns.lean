import Svr42.SigQueue
import Svr42.SlpSystem

/-! What the calls do to the pending signals of every process, and what holds of them in every run. -/

namespace Svr42.Sig
open Function Option

open Disp Slp

variable {Ptr : Type} {s t u : Sys Ptr} {p q : Ptr} {sig : Int} {g g' g'' : Sigs}
  {lost lost' : Int → Prop} {k : Kernel Ptr}

/-- Signals stop to be pending only if they are in `lost`, and everything stays in order. -/
structure Loses (lost : Int → Prop) (g g' : Sigs) : Prop where
  consistent : Consistent g → Consistent g'
  pending : ∀ sig, Valid sig → Pending g sig → Pending g' sig ∨ lost sig

/-- Nothing changes that matters to what is pending. -/
structure Same (g g' : Sigs) : Prop where
  pSig : g'.pSig = g.pSig
  pSigqueue : g'.pSigqueue = g.pSigqueue

theorem Same.refl (g : Sigs) : Same g g := ⟨rfl, rfl⟩

theorem Same.consistent (h : Same g g') (hg : Consistent g) : Consistent g' := by
  have hp : ∀ sig, Pending g' sig ↔ Pending g sig := fun sig => by rw [Pending, h.pSig, Pending]
  refine Orderly.shrink hg ?_ (fun sig _ => (hp sig).mp) fun sqp _ => (hp _).mpr
  rw [h.pSigqueue]

theorem Same.pending (h : Same g g') : Pending g' sig ↔ Pending g sig := by
  rw [Pending, h.pSig, Pending]

theorem Same.loses (h : Same g g') : Loses lost g g' :=
  ⟨h.consistent, fun _ _ hp => .inl (h.pending.mpr hp)⟩

theorem Loses.refl (g : Sigs) : Loses lost g g := (Same.refl g).loses

theorem Loses.mono (h : Loses lost g g') (himp : ∀ sig, lost sig → lost' sig) : Loses lost' g g' :=
  ⟨h.consistent, fun sig hvalid hp => (h.pending sig hvalid hp).imp_right (himp sig)⟩

theorem Loses.trans (h : Loses lost g g') (h' : Loses lost g' g'') : Loses lost g g'' where
  consistent hg := h'.consistent (h.consistent hg)
  pending sig hvalid hp := by
    rcases h.pending sig hvalid hp with hp' | hlost
    · exact h'.pending sig hvalid hp'
    · exact .inr hlost

def AllLose (lost : Ptr → Int → Prop) (s t : Sys Ptr) : Prop :=
  ∀ q, Loses (lost q) (s.sigs q) (t.sigs q)

def Kept (s t : Sys Ptr) : Prop := AllLose (fun _ _ => False) s t

theorem AllLose.trans {lost : Ptr → Int → Prop} (h : AllLose lost s t) (h' : AllLose lost t u) :
    AllLose lost s u :=
  fun q => (h q).trans (h' q)

theorem Kept.refl (s : Sys Ptr) : Kept s s := fun _ => Loses.refl _

theorem Kept.trans (h : Kept s t) (h' : Kept t u) : Kept s u := AllLose.trans h h'

theorem Kept.lose {lost : Ptr → Int → Prop} (h : Kept s t) : AllLose lost s t :=
  fun q => (h q).mono fun _ hno => hno.elim

theorem Kept.of_sigs (h : t.sigs = s.sigs) : Kept s t := fun q => by
  rw [h]
  exact Loses.refl _

theorem tracing_congr {n : Int} (hflag : t.slp.flag p &&& sTRC = s.slp.flag p &&& sTRC)
    (hmask : (t.sigs p).pSigmask = (s.sigs p).pSigmask) : tracing t p n = tracing s p n := by
  rw [tracing, tracing, hflag, hmask]

variable {slp : Option (Slp.Sys Ptr)}

theorem Sys.calls_eq (h : s.calls slp = some t) : t.sigs = s.sigs ∧ slp = some t.slp := by
  obtain ⟨x, hx, rfl⟩ := map_eq_some_iff.mp h
  exact ⟨rfl, hx⟩

theorem kept_calls (h : s.calls slp = some t) : Kept s t :=
  Kept.of_sigs (Sys.calls_eq h).1

def Fresh (s : Sys Ptr) : Prop := ∀ q, (s.sigs q).pSig = 0 ∧ (s.sigs q).pSigqueue = []

theorem Fresh.consistent (h : Fresh s) (q : Ptr) : Consistent (s.sigs q) := by
  obtain ⟨hsig, hqueue⟩ := h q
  have hnone : ∀ sig, ¬ Pending (s.sigs q) sig := by
    intro sig hp
    rw [Pending, hsig, sigismember_eq] at hp
    exact absurd (hp.symm.trans BitVec.getLsbD_zero) (by decide)
  have hempty : ∀ sqp, sqp ∉ (s.sigs q).pSigqueue := fun sqp hsqp => by
    rw [hqueue] at hsqp
    exact List.not_mem_nil hsqp
  refine ⟨fun sig _ hboth => hnone sig hboth.2, fun sqp hsqp => absurd hsqp (hempty sqp),
    fun sqp hsqp => absurd hsqp (hempty sqp), ?_⟩
  rw [hqueue]
  exact List.nodup_nil

theorem same_current (g : Sigs) (pCursig : Int) (pCurinfo : Option Siginfo) :
    Same g { g with pCursig := pCursig, pCurinfo := pCurinfo } :=
  ⟨rfl, rfl⟩

variable [DecidableEq Ptr]

theorem lose_setSigs {lost : Ptr → Int → Prop} (h : Loses (lost p) (s.sigs p) g) :
    AllLose lost s (setSigs s p g) := by
  intro q
  by_cases hq : q = p
  · subst hq
    simpa [setSigs] using h
  · simpa [setSigs, hq] using Loses.refl _

theorem kept_setSigs (h : Same (s.sigs p) g) : Kept s (setSigs s p g) := lose_setSigs h.loses

theorem sigs_setSigs_self (g : Sigs) : (setSigs s p g).sigs p = g := update_self _ _ _

theorem kept_setPoint (point : Point) : Kept s (setPoint s p point) := Kept.of_sigs rfl

theorem lose_setBoth {lost : Ptr → Int → Prop} (h : Loses (lost p) (s.sigs p) g) (point : Point) :
    AllLose lost s (setPoint (setSigs s p g) p point) :=
  (lose_setSigs h).trans (kept_setPoint point).lose

theorem kept_setFlag (pFlag : BitVec 32) : Kept s (setFlag s p pFlag) := Kept.of_sigs rfl

theorem kept_setStopped (stopped : Stopped) : Kept s (setStopped s p stopped) := Kept.of_sigs rfl

theorem asked_setSigs (hmask : g.pSigmask = (s.sigs p).pSigmask)
    (hignore : g.pIgnore = (s.sigs p).pIgnore) (n : Int) :
    tracing (setSigs s p g) p n = tracing s p n ∧ ignored (setSigs s p g) p n = ignored s p n := by
  refine ⟨tracing_congr rfl ?_, ?_⟩
  · rw [sigs_setSigs_self, hmask]
  · rw [ignored, ignored, sigs_setSigs_self, hignore]

theorem fields_cancel (g : Sigs) (sig : Int) :
    (cancel g sig).pSigmask = g.pSigmask ∧ (cancel g sig).pIgnore = g.pIgnore ∧
      (cancel g sig).pCursig = g.pCursig := by
  have hdelq : ∀ (g : Sigs) (n : Int), (delqPending g n).pSigmask = g.pSigmask ∧
      (delqPending g n).pIgnore = g.pIgnore ∧ (delqPending g n).pCursig = g.pCursig := by
    intro g n
    unfold delqPending
    split_ifs
    · exact ⟨rfl, rfl, rfl⟩
    · exact ⟨rfl, rfl, rfl⟩
  unfold cancel
  split_ifs
  · simp only [hdelq]
    trivial
  · exact ⟨rfl, rfl, rfl⟩
  · exact ⟨rfl, rfl, rfl⟩

def dropped (s : Sys Ptr) (p : Ptr) (sig : Int) : Bool := !tracing s p sig && ignored s p sig

/-! ### Pending to current -/

theorem loses_drop (hsig : Valid sig) (pCursig : Int) :
    Loses (· = sig) g (sigdelq { g with pSig := sigdelset g.pSig sig, pCursig := pCursig } sig) where
  consistent h := h.drop hsig
  pending other hother hp := by
    by_cases heq : other = sig
    · exact .inr heq
    · exact .inl ((sigismember_del hother hsig).mpr ⟨hp, heq⟩)

theorem loses_promote (hs : Consistent g) (hsig : Valid sig) : Loses (· = sig) g (promote g sig) := by
  obtain ⟨hspec, -⟩ := sigdeq_spec
    (g := { g with pSig := sigdelset g.pSig sig, pCursig := sig }) hs.nodup sig
  refine ⟨fun _ => (same_current _ _ _).consistent (hs.promote hsig), fun other hother hp => ?_⟩
  by_cases heq : other = sig
  · exact .inr heq
  refine .inl ?_
  change sigismember (sigdeq _ sig).2.pSig other = true
  rw [hspec]
  exact (sigismember_del hother hsig).mpr ⟨hp, heq⟩

theorem cursig_promote (hs : Consistent g) : (promote g sig).pCursig = sig :=
  (sigdeq_spec (g := { g with pSig := sigdelset g.pSig sig, pCursig := sig }) hs.nodup sig).2.1

/-- The one signal that is looked at becomes the current one, or is dropped because it is ignored. -/
theorem lookPending_lose (hs : Consistent (s.sigs p)) :
    AllLose (fun q other => q = p ∧ (((lookPending s p).sigs p).pCursig = other ∨
      dropped s p other = true)) s (lookPending s p) := by
  rcases fsig_cases (s.sigs p) (s.slp.flag p) with hzero | ⟨hvalid, -⟩
  · have hend : lookPending s p = setPoint s p (.out 0) := by
      unfold lookPending
      rw [if_pos hzero]
    exact hend ▸ (kept_setPoint _).lose
  generalize hsig : fsig (s.sigs p) (s.slp.flag p) = sig at hvalid
  have hne : sig ≠ 0 := by
    have hpos := hvalid.1
    omega
  by_cases hask : tracing s p sig = true ∨ ¬ ignored s p sig = true
  · by_cases hwhy : s.why p = .justlooking
    · have hend : lookPending s p = setPoint s p (.out sig) := by
        unfold lookPending
        dsimp only
        rw [hsig, if_neg hne, if_pos hask, if_pos hwhy]
      exact hend ▸ (kept_setPoint _).lose
    have hend : ∃ point, lookPending s p = setPoint (setSigs s p (promote (s.sigs p) sig)) p point := by
      unfold lookPending
      dsimp only
      rw [hsig, if_neg hne, if_pos hask, if_neg hwhy]
      exact ⟨_, rfl⟩
    obtain ⟨point, hend⟩ := hend
    rw [hend]
    refine lose_setBoth ((loses_promote hs hvalid).mono fun other heq => ⟨rfl, .inl ?_⟩) point
    change ((setSigs s p (promote (s.sigs p) sig)).sigs p).pCursig = other
    rw [sigs_setSigs_self, cursig_promote hs, heq]
  · have hend : lookPending s p = setSigs s p
        (sigdelq { s.sigs p with pSig := sigdelset (s.sigs p).pSig sig } sig) := by
      unfold lookPending
      dsimp only
      rw [hsig, if_neg hne, if_neg hask]
    rw [hend]
    refine lose_setSigs ((loses_drop hvalid _).mono fun other heq => ⟨rfl, .inr ?_⟩)
    rw [heq, dropped]
    simpa using hask

variable [Fintype Ptr]

theorem notify_kept (h : notify k s p sig = some t) : Kept s t := by
  unfold notify at h
  split_ifs at h
  · exact some.inj h ▸ Kept.refl _
  · exact kept_calls h
  · exact kept_calls h
  · exact kept_calls h
  · exact some.inj h ▸ Kept.refl _
  · exact some.inj h ▸ kept_setSigs ⟨rfl, rfl⟩
  · exact some.inj h ▸ Kept.refl _

/-! ### Posting a signal -/

theorem jobCont_spec (h : jobCont k s p sig = some t) :
    t.sigs = s.sigs ∧ tracing t p sig = tracing s p sig := by
  unfold jobCont at h
  split_ifs at h
  · obtain ⟨hsigs, hrun⟩ := Sys.calls_eq h
    refine ⟨hsigs, tracing_congr ?_ (by rw [hsigs])⟩
    have hflag := congrFun (flag_setrun hrun) p
    have hnone : sXSTART &&& sTRC = 0#32 := by decide
    rw [Slp.setFlag, flag_setProc, update_self] at hflag
    rw [hflag, BitVec.and_or_distrib_right, hnone, BitVec.or_zero]
  · rw [some.inj h]
    exact ⟨rfl, rfl⟩

def posted (drop : Bool) (g : Sigs) (sig : Int) : Sigs :=
  if drop then cancel g sig
  else { cancel g sig with pSig := sigaddset (cancel g sig).pSig sig }

theorem Valid.in_range (h : Valid sig) : ¬ (sig ≤ 0 ∨ sig ≥ NSIG) := by
  have hpos := h.1
  have hlt := h.2
  omega

variable {fromuser : Bool}

theorem sigtoproc_spec (hsig : Valid sig) (h : sigtoproc k s p sig fromuser = some t) :
    Kept (setSigs s p (posted (dropped s p sig) (s.sigs p) sig)) t := by
  unfold sigtoproc at h
  rw [if_neg hsig.in_range] at h
  obtain ⟨r, hr, hpost⟩ := bind_eq_some_iff.mp h
  obtain ⟨hsigs, htracing⟩ := jobCont_spec hr
  obtain ⟨hmask, hignore, -⟩ := fields_cancel (s.sigs p) sig
  have htraced : tracing r p sig = tracing s p sig := by
    refine htracing.trans (tracing_congr rfl ?_)
    rw [sigs_setSigs_self, hmask]
  have hignored : ignored r p sig = ignored s p sig := by
    rw [ignored, ignored, hsigs, sigs_setSigs_self, hignore]
  rw [htraced, hignored] at hpost
  unfold posted dropped
  split_ifs at hpost with hdrop
  · have hd : (!tracing s p sig && ignored s p sig) = true := by simpa using hdrop
    rw [if_pos hd, ← some.inj hpost]
    exact Kept.of_sigs hsigs
  · have hd : ¬ (!tracing s p sig && ignored s p sig) = true := by simpa using hdrop
    rw [if_neg hd]
    refine Kept.trans (Kept.of_sigs ?_) (notify_kept hpost)
    rw [setSigs, setSigs, hsigs, sigs_setSigs_self]
    exact update_idem _ _ _

theorem sigtoproc_invalid (hsig : ¬ Valid sig) : sigtoproc k s p sig fromuser = some s := by
  have hrange : sig ≤ 0 ∨ sig ≥ NSIG := by
    by_contra hno
    exact hsig ⟨by omega, by omega⟩
  rw [sigtoproc, if_pos hrange]

theorem pending_posted (hsig : Valid sig) (drop : Bool) {other : Int} (hother : Valid other)
    (hp : Pending g other) : Pending (posted drop g sig) other ∨ Conflicts sig other := by
  by_cases hconf : Conflicts sig other
  · exact .inr hconf
  have hcancel := (pending_cancel hsig hother).mpr ⟨hp, hconf⟩
  cases drop with
  | false => exact .inl ((sigismember_add hother hsig).mpr (.inl hcancel))
  | true => exact .inl hcancel

theorem consistent_posted (hsig : Valid sig) (h : Orderly (· = sig) g) :
    Consistent (posted false g sig) :=
  (h.cancel hsig).post hsig fun _ hother hp => ((pending_cancel hsig hother).mp hp).2

theorem loses_posted (hsig : Valid sig) (drop : Bool) : Loses (Conflicts sig) g (posted drop g sig) where
  consistent h := by
    cases drop with
    | false => exact consistent_posted hsig (h.orderly _)
    | true => exact Orderly.cancel h hsig
  pending _ hother hp := pending_posted hsig drop hother hp

theorem sigtoproc_lose (h : sigtoproc k s p sig fromuser = some t) :
    AllLose (fun q other => q = p ∧ Conflicts sig other) s t := by
  by_cases hsig : Valid sig
  · have hlose := (loses_posted (g := s.sigs p) hsig (dropped s p sig)).mono
      fun other hother => And.intro (Eq.refl p) hother
    exact AllLose.trans (lose_setSigs hlose) (sigtoproc_spec hsig h).lose
  · rw [sigtoproc_invalid hsig] at h
    exact some.inj h ▸ (Kept.refl s).lose

theorem sigtoproc_posts (hsig : Valid sig) (hdrop : dropped s p sig = false)
    (h : sigtoproc k s p sig fromuser = some t) : Pending (t.sigs p) sig := by
  have hkept := sigtoproc_spec hsig h p
  rw [sigs_setSigs_self, hdrop] at hkept
  have hadded : Pending (posted false (s.sigs p) sig) sig := (sigismember_add hsig hsig).mpr (.inr rfl)
  exact (hkept.pending sig hsig hadded).resolve_right id

variable {info : Siginfo} {mem : Bool}

/-- A siginfo that is queued: its signal is posted, or was pending with another siginfo. -/
theorem sigaddq_cases (h : sigaddq k s p info mem = some t) :
    (t = s ∧ ∃ sqp ∈ (s.sigs p).pSigqueue, sqp.siSigno = info.siSigno) ∨
      sigtoproc k s p info.siSigno (info.siCode ≤ 0) = some t ∨
      (dropped s p info.siSigno = false ∧
        (¬ (s.sigs p).pSigqueue.any fun sqp => sqp.siSigno = info.siSigno) ∧
        sigtoproc k (setSigs s p
          { s.sigs p with pSigqueue := (s.sigs p).pSigqueue ++ [info] }) p info.siSigno
          (info.siCode ≤ 0) = some t) := by
  unfold sigaddq at h
  dsimp only at h
  split_ifs at h with hmem hany
  · obtain ⟨sqp, hsqp, heq⟩ := List.any_eq_true.mp hany
    exact .inl ⟨(some.inj h).symm, sqp, hsqp, of_decide_eq_true heq⟩
  · refine .inr (.inr ⟨?_, hany, h⟩)
    have hno := hmem.2
    unfold dropped
    simpa using hno
  · exact .inr (.inl h)

theorem sigaddq_lose (hsig : Valid info.siSigno) (h : sigaddq k s p info mem = some t) :
    AllLose (fun q other => q = p ∧ Conflicts info.siSigno other) s t := by
  rcases sigaddq_cases h with ⟨rfl, -⟩ | h | ⟨hdrop, hnone, h⟩
  · exact (Kept.refl t).lose
  · exact sigtoproc_lose h
  · have hspec := sigtoproc_spec hsig h
    have hsame : dropped (setSigs s p { s.sigs p with
        pSigqueue := (s.sigs p).pSigqueue ++ [info] }) p info.siSigno = false := by
      obtain ⟨htracing, hignored⟩ := asked_setSigs (s := s) (p := p)
        (g := { s.sigs p with pSigqueue := (s.sigs p).pSigqueue ++ [info] }) rfl rfl info.siSigno
      rw [← hdrop, dropped, dropped, htracing, hignored]
    rw [hsame, sigs_setSigs_self] at hspec
    unfold setSigs at hspec
    rw [update_idem] at hspec
    refine AllLose.trans (lose_setSigs ⟨fun hg => ?_, fun other hother hp => ?_⟩) hspec.lose
    · exact consistent_posted hsig (hg.queue hsig hnone)
    · have hp' : Pending { s.sigs p with pSigqueue := (s.sigs p).pSigqueue ++ [info] } other := hp
      exact (pending_posted hsig false hother hp').imp_right fun hconf => ⟨rfl, hconf⟩

theorem sigaddq_posts (hs : Consistent (s.sigs p)) (hsig : Valid info.siSigno)
    (hdrop : dropped s p info.siSigno = false) (h : sigaddq k s p info mem = some t) :
    Pending (t.sigs p) info.siSigno := by
  rcases sigaddq_cases h with ⟨rfl, sqp, hsqp, heq⟩ | h | ⟨-, -, h⟩
  · exact heq ▸ hs.queued hsqp
  · exact sigtoproc_posts hsig hdrop h
  · refine sigtoproc_posts hsig ?_ h
    obtain ⟨htracing, hignored⟩ := asked_setSigs (s := s) (p := p)
      (g := { s.sigs p with pSigqueue := (s.sigs p).pSigqueue ++ [info] }) rfl rfl info.siSigno
    rwa [dropped, htracing, hignored]

/-! ### Stopping -/

theorem not_conflicts_cld (other : Int) : ¬ Conflicts SIGCLD other := by
  rintro (⟨hno, -⟩ | ⟨hno | hno | hno | hno, -⟩)
  all_goals exact absurd hno (by decide)

theorem sigcld_kept (h : sigcld k s p = some t) : Kept s t := by
  have hsend : ∀ {s t : Sys Ptr} {pp : Ptr} {wcode : Int},
      sigaddq k s pp ⟨SIGCLD, wcode⟩ true = some t → Kept s t := fun h q =>
    (sigaddq_lose (show Valid SIGCLD by decide) h q).mono fun other hlost => not_conflicts_cld other hlost.2
  unfold sigcld at h
  dsimp only at h
  split_ifs at h
  · obtain ⟨u, hwake, h⟩ := bind_eq_some_iff.mp h
    exact (kept_calls hwake).trans (hsend h)
  · obtain ⟨u, hwake, h⟩ := bind_eq_some_iff.mp h
    split_ifs at h
    · exact (kept_calls hwake).trans (hsend h)
    · exact some.inj h ▸ kept_calls hwake
  · exact some.inj h ▸ Kept.refl s

theorem procStop_kept (h : procStop k s p = some t) : Kept s t := by
  unfold procStop at h
  dsimp only at h
  split at h
  · exact some.inj h ▸ kept_setFlag _
  · exact (kept_setFlag _).trans (kept_calls h)

variable {firststop : Bool}

theorem tellStop_kept {why what : Nat} (h : tellStop k s p why what firststop = some t) : Kept s t := by
  unfold tellStop at h
  split_ifs at h
  · exact (kept_setFlag _).trans ((kept_setStopped _).trans (sigcld_kept h))
  · obtain ⟨u, hwake, h⟩ := bind_eq_some_iff.mp h
    have hu : Kept s u := (kept_setStopped _).trans (kept_calls hwake)
    split_ifs at h
    · exact hu.trans (some.inj h ▸ kept_setFlag _)
    · exact hu.trans (procStop_kept h)
  · exact (kept_setFlag _).trans (procStop_kept h)
  · exact (kept_setFlag _).trans (procStop_kept h)

theorem stop_kept {why what : Nat} {r : Sys Ptr × Bool} (h : stop k s p why what firststop = some r) :
    Kept s r.1 := by
  unfold stop at h
  split_ifs at h
  · exact some.inj h ▸ Kept.refl s
  · obtain ⟨u, hu, rfl⟩ := map_eq_some_iff.mp h
    have htold := tellStop_kept hu
    exact Kept.trans (Kept.of_sigs rfl) htold

/-! ### `issig` -/

theorem isjobstop_lose {r : Sys Ptr × Jobstop} (h : isjobstop k s p sig = some r) :
    AllLose (fun q other => q = p ∧ Conflicts sig other) s r.1 := by
  unfold isjobstop at h
  dsimp only at h
  split_ifs at h with hstop hcont hjob
  · rw [← some.inj h]
    exact lose_setSigs ((loses_drop valid_cont _).mono fun other heq =>
      ⟨rfl, .inr ⟨stopDefault_of_member hstop.2, heq⟩⟩)
  · obtain ⟨u, hu, rfl⟩ := map_eq_some_iff.mp h
    exact (stop_kept hu).lose
  · exact some.inj h ▸ (Kept.refl s).lose
  · exact some.inj h ▸ (Kept.refl s).lose

theorem lookCurrent_lose (h : lookCurrent k s p = some t) :
    AllLose (fun q other => q = p ∧ Conflicts (s.sigs p).pCursig other) s t := by
  unfold lookCurrent at h
  dsimp only at h
  have hclear : Kept s (setSigs s p { s.sigs p with pCursig := 0 }) := kept_setSigs ⟨rfl, rfl⟩
  have hback : ∀ (s : Sys Ptr) (sig : Int) (point : Point),
      Kept s (setPoint (setSigs s p { s.sigs p with pCursig := sig }) p point) := fun s sig point =>
    lose_setBoth (same_current _ _ _).loses point
  split_ifs at h
  · exact some.inj h ▸ (hclear.trans (hback _ _ _)).lose
  · exact some.inj h ▸ (hclear.trans (kept_setPoint _)).lose
  · obtain ⟨r, hr, rfl⟩ := map_eq_some_iff.mp h
    refine hclear.lose.trans ((isjobstop_lose hr).trans (Kept.lose ?_))
    cases r.2 with
    | no => exact hback _ _ _
    | yes => exact kept_setPoint _
    | stop => exact kept_setPoint _
  · exact some.inj h ▸ (kept_setPoint _).lose

theorem issigStep_lose {released : Bool} (hs : Consistent (s.sigs p))
    (h : issigStep k s p released = some t) :
    AllLose (fun q other => q = p ∧ (Conflicts (s.sigs p).pCursig other ∨
      (t.sigs p).pCursig = other ∨ dropped s p other = true)) s t := by
  unfold issigStep at h
  cases hpoint : s.point p with
  | out _ =>
    rw [hpoint] at h
    exact some.inj h ▸ (Kept.refl s).lose
  | top =>
    rw [hpoint] at h
    dsimp only at h
    split_ifs at h
    · obtain ⟨r, hr, rfl⟩ := map_eq_some_iff.mp h
      exact ((stop_kept hr).trans (kept_setPoint _)).lose
    · exact some.inj h ▸ (kept_setPoint _).lose
  | current =>
    rw [hpoint] at h
    exact fun q => (lookCurrent_lose h q).mono fun other hlost => ⟨hlost.1, .inl hlost.2⟩
  | continued =>
    rw [hpoint] at h
    obtain ⟨r, hr, rfl⟩ := map_eq_some_iff.mp h
    have hcld := sigcld_kept hr
    exact ((kept_setStopped _).trans (hcld.trans (kept_setPoint _))).lose
  | discard =>
    rw [hpoint] at h
    exact some.inj h ▸ lose_setBoth (same_current _ _ _).loses _
  | pending =>
    rw [hpoint] at h
    have ht := some.inj h
    rw [← ht]
    exact fun q => (lookPending_lose hs q).mono fun other hlost => ⟨hlost.1, .inr hlost.2⟩
  | traced sig firststop =>
    rw [hpoint] at h
    dsimp only at h
    split_ifs at h
    · exact some.inj h ▸ ((kept_setFlag _).trans (kept_setPoint _)).lose
    · obtain ⟨r, hr, rfl⟩ := map_eq_some_iff.mp h
      exact ((stop_kept hr).trans (kept_setPoint _)).lose
  | trapped sig =>
    rw [hpoint] at h
    exact some.inj h ▸ (kept_setPoint _).lose
  | released =>
    rw [hpoint] at h
    exact some.inj h ▸ lose_setBoth (same_current _ _ _).loses _

/-! ### Runs -/

/-- `go` is the next step of `issig`; `kernel` is whatever else happens, to the sets of signals that
are held, ignored and traced and to the current signal too. -/
inductive Event (Ptr : Type) where
  | psignal (p : Ptr) (sig : Int)
  | sigaddq (p : Ptr) (info : Siginfo) (mem : Bool)
  | sigdeq (p : Ptr) (sig : Int)
  | sigdelq (p : Ptr) (sig : Int)
  | issig (p : Ptr) (why : Why)
  | go (p : Ptr) (released : Bool)
  | kernel (u : Sys Ptr)

def call (k : Kernel Ptr) (s : Sys Ptr) : Event Ptr → Option (Sys Ptr)
  | .psignal p sig => psignal k s p sig
  | .sigaddq p info mem => sigaddq k s p info mem
  | .sigdeq p sig => some (setSigs s p (sigdeq (s.sigs p) sig).2)
  | .sigdelq p sig => some (setSigs s p (sigdelq (s.sigs p) sig))
  | .issig p why => some (issig s p why)
  | .go p released => issigStep k s p released
  | .kernel u => some u

def Enabled (s : Sys Ptr) : Event Ptr → Prop
  | .sigaddq _ info _ => Valid info.siSigno
  | .issig p _ => ∃ ret, s.point p = .out ret
  | .kernel u => u.point = s.point ∧ u.why = s.why ∧ ∀ q, Same (s.sigs q) (u.sigs q)
  | _ => True

def Step (k : Kernel Ptr) (s : Sys Ptr) (event : Event Ptr) (t : Sys Ptr) : Prop :=
  Enabled s event ∧ call k s event = some t

/-- How a signal can stop to be pending for `q`: another one that conflicts with it is posted, or is
the current signal; it becomes the current signal; or it is ignored and not traced. -/
inductive Leaves (s t : Sys Ptr) (q : Ptr) (sig : Int) : Event Ptr → Prop
  | psignal {other : Int} : Conflicts other sig → Leaves s t q sig (.psignal q other)
  | sigaddq {info : Siginfo} {mem : Bool} : Conflicts info.siSigno sig →
      Leaves s t q sig (.sigaddq q info mem)
  | jobstop {released : Bool} : Conflicts (s.sigs q).pCursig sig →
      Leaves s t q sig (.go q released)
  | promoted {released : Bool} : (t.sigs q).pCursig = sig → Leaves s t q sig (.go q released)
  | ignored {released : Bool} : dropped s q sig = true → Leaves s t q sig (.go q released)

theorem step_lose {event : Event Ptr} (hs : ∀ q, Consistent (s.sigs q)) (h : Step k s event t) :
    AllLose (fun q sig => Leaves s t q sig event) s t := by
  obtain ⟨hen, h⟩ := h
  cases event with
  | psignal p sig =>
    have hcall : sigtoproc k s p sig false = some t := h
    intro q
    refine (sigtoproc_lose hcall q).mono fun other hlost => ?_
    obtain ⟨rfl, hconf⟩ := hlost
    exact .psignal hconf
  | sigaddq p info mem =>
    intro q
    refine (sigaddq_lose hen h q).mono fun other hlost => ?_
    obtain ⟨rfl, hconf⟩ := hlost
    exact .sigaddq hconf
  | sigdeq p sig =>
    have hpsig := (sigdeq_spec (hs p).nodup sig).1
    refine some.inj h ▸ lose_setSigs ⟨fun hg => hg.sigdeq sig, fun other _ hp => ?_⟩
    exact .inl (by rwa [Pending, hpsig])
  | sigdelq p sig =>
    exact some.inj h ▸ lose_setSigs ⟨fun hg => hg.sigdelq sig, fun _ _ hp => .inl hp⟩
  | issig p why =>
    have hkept : Kept s (setSigs s p { s.sigs p with uSigevpend := false }) := kept_setSigs ⟨rfl, rfl⟩
    exact some.inj h ▸ (hkept.trans (Kept.of_sigs rfl)).lose
  | go p released =>
    intro q
    refine (issigStep_lose (hs p) h q).mono fun other hleft => ?_
    obtain ⟨rfl, hlost⟩ := hleft
    rcases hlost with hconf | hcur | hdrop
    · exact .jobstop hconf
    · exact .promoted hcur
    · exact .ignored hdrop
  | kernel u =>
    exact some.inj h ▸ fun q => (hen.2.2 q).loses

/-! ### The calls return -/

variable {n : Nat}

theorem jobCont_sound (hs : Slp.Sound k n s.slp) (p : Ptr) (sig : Int) :
    ∃ t, jobCont k s p sig = some t ∧ Slp.Sound k n t.slp := by
  unfold jobCont
  split_ifs with h
  · obtain ⟨slp, hcall, hslp⟩ := setrun_sound (hs.setFlag (by rw [h.2.1]; decide) _) p
    rw [hcall]
    exact ⟨_, rfl, hslp⟩
  · exact ⟨s, rfl, hs⟩

theorem notify_sound (hs : Slp.Sound k n s.slp) (p : Ptr) (sig : Int) :
    ∃ t, notify k s p sig = some t ∧ Slp.Sound k n t.slp := by
  have hrun : ∀ slp, Slp.Sound k n slp →
      ∃ t, s.calls (setrun k slp p) = some t ∧ Slp.Sound k n t.slp := by
    intro slp hslp
    obtain ⟨slp', hcall, hslp'⟩ := setrun_sound hslp p
    rw [hcall]
    exact ⟨_, rfl, hslp'⟩
  unfold notify
  split_ifs with hsleep hdeaf hstop hkill hwait hself
  · exact ⟨s, rfl, hs⟩
  · exact hrun _ hs
  · exact hrun _ (hs.setFlag (by rw [hstop]; decide) _)
  · obtain ⟨slp, hcall, hslp⟩ := unsleep_sound hs p
    rw [hcall]
    exact ⟨_, rfl, hslp⟩
  · exact ⟨s, rfl, hs⟩
  · exact ⟨_, rfl, hs⟩
  · exact ⟨s, rfl, hs⟩

theorem sigtoproc_sound (hs : Slp.Sound k n s.slp) (p : Ptr) (sig : Int) (fromuser : Bool) :
    ∃ t, sigtoproc k s p sig fromuser = some t ∧ Slp.Sound k n t.slp := by
  unfold sigtoproc
  split_ifs
  · exact ⟨s, rfl, hs⟩
  · obtain ⟨r, hr, hslp⟩ := jobCont_sound (s := setSigs s p (cancel (s.sigs p) sig)) hs p sig
    rw [hr, bind_some]
    split_ifs
    · exact ⟨r, rfl, hslp⟩
    · exact notify_sound (s := setSigs r p _) hslp p sig

theorem sigaddq_sound (hs : Slp.Sound k n s.slp) (p : Ptr) (info : Siginfo) (mem : Bool) :
    ∃ t, sigaddq k s p info mem = some t ∧ Slp.Sound k n t.slp := by
  unfold sigaddq
  dsimp only
  split_ifs
  · exact ⟨s, rfl, hs⟩
  · exact sigtoproc_sound (s := setSigs s p _) hs p info.siSigno (info.siCode ≤ 0)
  · exact sigtoproc_sound hs p info.siSigno (info.siCode ≤ 0)

/-! ### Every run -/

theorem run_consistent {events : List (Event Ptr)} (hs : ∀ q, Consistent (s.sigs q))
    (hrun : Exec (Step k) s events t) (q : Ptr) : Consistent (t.sigs q) :=
  hrun.keeps (fun s => ∀ q, Consistent (s.sigs q))
    (fun _ _ _ hs hstep q => (step_lose hs hstep q).consistent (hs q)) hs q

/-- In every state that is reached, what is pending and queued for every process is in order; a
signal that is posted and not ignored, or traced, is pending then; and what is pending is so until
it becomes the current signal, a signal that conflicts takes it away, or it is found to be ignored. -/
theorem signals_run {events : List (Event Ptr)} (hs : Fresh s) (hrun : Exec (Step k) s events t) :
    (∀ q, Consistent (t.sigs q)) ∧
      (∀ p sig u, Valid sig → dropped t p sig = false → psignal k t p sig = some u →
        Pending (u.sigs p) sig) ∧
      (∀ p info mem u, Valid info.siSigno → dropped t p info.siSigno = false →
        sigaddq k t p info mem = some u → Pending (u.sigs p) info.siSigno) ∧
      (∀ later u q sig, Exec (Step k) t later u → Valid sig → Pending (t.sigs q) sig →
        Pending (u.sigs q) sig ∨ ∃ before event after v w, later = before ++ event :: after ∧
          Exec (Step k) t before v ∧ Step k v event w ∧ Exec (Step k) w after u ∧
          Leaves v w q sig event) ∧
      ∀ n, Slp.Sound k n t.slp → (∀ p sig, ∃ u, psignal k t p sig = some u) ∧
        ∀ p info mem, ∃ u, sigaddq k t p info mem = some u := by
  have hcons := run_consistent hs.consistent hrun
  refine ⟨hcons, fun p sig u hsig hdrop hcall => sigtoproc_posts hsig hdrop hcall,
    fun p info mem u hsig hdrop hcall => sigaddq_posts (hcons p) hsig hdrop hcall,
    fun later u q sig hlater hsig hp => ?_, fun n hsound => ⟨fun p sig => ?_, fun p info mem => ?_⟩⟩
  · by_cases hstill : Pending (u.sigs q) sig
    · exact .inl hstill
    obtain ⟨before, event, after, v, w, hsplit, hbefore, hstep, hafter, hv, hw⟩ :=
      hlater.lost (P := fun s => Pending (s.sigs q) sig) hp hstill
    have hlose := step_lose (run_consistent hcons hbefore) hstep q
    have hleaves := (hlose.pending sig hsig hv).resolve_left hw
    exact .inr ⟨before, event, after, v, w, hsplit, hbefore, hstep, hafter, hleaves⟩
  · obtain ⟨u, hcall, -⟩ := sigtoproc_sound hsound p sig false
    exact ⟨u, hcall⟩
  · obtain ⟨u, hcall, -⟩ := sigaddq_sound hsound p info mem
    exact ⟨u, hcall⟩

def noSignals : Sigs :=
  ⟨0, 0, 0, 0, 0, none, [], fun _ => SIG_DFL, false, false, none, 0⟩

def quiet : Sys (Fin 2) := ⟨twoRunning, fun _ => noSignals, fun _ => .forreal, fun _ => .out 0⟩

theorem signals_run_quiet : ∃ t u, psignal swapper quiet 0 SIGTSTP = some t ∧
    psignal swapper t 0 SIGCONT = some u ∧ Consistent (t.sigs 0) ∧ Pending (u.sigs 0) SIGCONT := by
  have hsome : ∀ (x : Option (Sys (Fin 2))), x.isSome → ∃ t, x = some t :=
    fun x hx => isSome_iff_exists.mp hx
  obtain ⟨t, ht⟩ := hsome (psignal swapper quiet 0 SIGTSTP) (by decide +kernel)
  have hstep : Step swapper quiet (.psignal 0 SIGTSTP) t := ⟨trivial, ht⟩
  have hfresh : Fresh quiet := fun _ => ⟨rfl, rfl⟩
  obtain ⟨hcons, hposts, -, -, hreturns⟩ := signals_run hfresh (Exec.single hstep)
  have hsound : Slp.Sound swapper 1 t.slp := by
    obtain ⟨t', ht', hsound⟩ := sigtoproc_sound (s := quiet) twoRunning_booted.sound 0 SIGTSTP false
    rwa [some.inj (ht.symm.trans ht')]
  obtain ⟨u, hu⟩ := (hreturns 1 hsound).1 0 SIGCONT
  refine ⟨t, u, ht, hu, hcons 0, hposts 0 SIGCONT u (by decide) ?_ hu⟩
  have hdrop : ((psignal swapper quiet 0 SIGTSTP).map fun t => dropped t 0 SIGCONT) =
      some false := by decide +kernel
  rw [ht] at hdrop
  exact some.inj hdrop

end Svr42.Sig
