import Mathlib.Data.Int.Interval
import Svr42.PidTies

/-! Every step the callers may take keeps the process table in order. -/

namespace Svr42.Proc
open Finset Function Option

variable {v : Var} {s t : State} {birth : Nat → Nat} {event : Event} {a g p q k stp : Nat}

/-- A process has a pid structure of its own that is marked as having one. -/
structure Named (procs : Finset Nat) (p_pidp : Nat → Nat) (pids : Finset Nat)
    (pid_prinactive : Nat → Bool) : Prop where
  active : ∀ p ∈ procs, pid_prinactive (p_pidp p) = false
  proc : ∀ a ∈ pids, pid_prinactive a = false → ∃ p ∈ procs, p_pidp p = a

/-- Where ids come from. -/
structure Numbered (pids : Finset Nat) (pid_id : Nat → Int) (minpid mpid : Int) : Prop where
  ids : ∀ a ∈ pids, 0 ≤ pid_id a ∧ pid_id a ≤ MAXPID
  min : 0 ≤ minpid ∧ minpid ≤ MAXPID
  last : 0 ≤ mpid ∧ mpid ≤ MAXPID
  start : minpid = 0 → mpid < MAXPID

structure Inv (v : Var) (s : State) (birth : Nat → Nat) : Prop where
  hashed : Hashed s.pids s.pid_id s.pid_link s.pidhash
  grouped : Grouped s.procs s.p_pgidp s.p_pglink s.pid_pglink
  slotted : Slotted v.v_proc s.procs (fun p => s.pid_prslot (s.p_pidp p)) s.procdir s.procentfree
  active : Active s.procs s.p_next s.practive
  count : s.nproc = s.procs.card
  named : Named s.procs s.p_pidp s.pids s.pid_prinactive
  numbered : Numbered s.pids s.pid_id s.minpid s.mpid
  booked : Booked s.pids s.pid_ref (refs s)
  sessions : Sessions s.procs s.p_sessp s.sesss s.s_ref
  ties : s.Tied birth
  sched : proc_sched ∈ s.procs
  sched_pidp : s.p_pidp proc_sched = pid0
  sched_sessp : s.p_sessp proc_sched = some session0
  sched_sidp : s.s_sidp session0 = pid0

theorem Named.mono {procs pids pids' : Finset Nat} {p_pidp : Nat → Nat} {pid_prinactive : Nat → Bool}
    (h : Named procs p_pidp pids pid_prinactive) (hsub : pids' ⊆ pids) :
    Named procs p_pidp pids' pid_prinactive :=
  ⟨h.active, fun a ha => h.proc a (hsub ha)⟩

theorem Numbered.mono {pids pids' : Finset Nat} {pid_id : Nat → Int} {minpid mpid : Int}
    (h : Numbered pids pid_id minpid mpid) (hsub : pids' ⊆ pids) : Numbered pids' pid_id minpid mpid :=
  { h with ids := fun a ha => h.ids a (hsub ha) }

theorem update_sub_one (f : Nat → Int) (a b : Nat) :
    update f a (f a - 1) b = f b - if a = b then 1 else 0 := by
  by_cases h : a = b
  · subst h
    rw [update_self, if_pos rfl]
  · rw [update_of_ne (Ne.symm h), if_neg h, Int.sub_zero]

theorem groupRef_nonneg (pid_pglink : Nat → Option Nat) (a : Nat) : 0 ≤ groupRef pid_pglink a := by
  unfold groupRef
  split_ifs <;> omega

namespace Inv

variable (h : Inv v s birth)
include h

/-! What has a reference is allocated. -/

theorem proc_pid (hp : p ∈ s.procs) : s.p_pidp p ∈ s.pids := by
  refine h.booked.mem ?_
  have hpos : 0 < tally s.procs s.p_pidp (s.p_pidp p) := tally_pos.mpr ⟨p, hp, rfl⟩
  have hgroup := groupRef_nonneg s.pid_pglink (s.p_pidp p)
  unfold refs
  omega

theorem group_ref (hp : p ∈ s.procs) (hg : s.p_pgidp p = some g) : groupRef s.pid_pglink g = 1 :=
  if_neg fun hnone => h.grouped.eq_none_iff.mp hnone p hp hg

theorem group_pid (hp : p ∈ s.procs) (hg : s.p_pgidp p = some g) : g ∈ s.pids := by
  refine h.booked.mem ?_
  have hone := h.group_ref hp hg
  unfold refs
  omega

theorem sess_pid (hk : k ∈ s.sesss) : s.s_sidp k ∈ s.pids := by
  refine h.booked.mem ?_
  have hpos : 0 < tally s.sesss s.s_sidp (s.s_sidp k) := tally_pos.mpr ⟨k, hk, rfl⟩
  have hgroup := groupRef_nonneg s.pid_pglink (s.s_sidp k)
  unfold refs
  omega

theorem sess0 : session0 ∈ s.sesss := h.sessions.live _ h.sched _ h.sched_sessp

theorem pid0_refs : 2 + groupRef s.pid_pglink pid0 + tally s.streams s.sd_sidp (some pid0) +
    tally s.streams s.sd_pgidp (some pid0) ≤ refs s pid0 := by
  have hproc : 0 < tally s.procs s.p_pidp pid0 := tally_pos.mpr ⟨_, h.sched, h.sched_pidp⟩
  have hsess : 0 < tally s.sesss s.s_sidp pid0 := tally_pos.mpr ⟨_, h.sess0, h.sched_sidp⟩
  unfold refs
  omega

theorem ref_le (ha : a ∈ s.pids) : s.pid_ref a ≤ 6 := by
  have href := (h.booked.ref a ha).1
  have hle := Ties.refs_le h.ties a
  omega

theorem card_lt : s.procs.card < 32768 := by
  have hcard : s.procs.card ≤ (Finset.Icc (0 : Int) MAXPID).card := by
    refine card_le_card_of_injOn (fun p => s.pid_id (s.p_pidp p)) (fun p hp => ?_) ?_
    · have hid := h.numbered.ids _ (h.proc_pid (mem_coe.mp hp))
      exact mem_coe.mpr (mem_Icc.mpr hid)
    · intro p hp q hq heq
      exact h.ties.pid_inj p hp q hq (h.hashed.id_inj _ (h.proc_pid hp) _ (h.proc_pid hq) heq)
  have hrange : (Finset.Icc (0 : Int) MAXPID).card = 30001 := by
    rw [Int.card_Icc, MAXPID]
    decide
  omega

theorem not_pid0 (hp : p ∈ s.procs) (hne : p ≠ proc_sched) : s.p_pidp p ≠ pid0 := fun heq =>
  hne (h.ties.pid_inj p hp _ h.sched (heq.trans h.sched_pidp.symm))

theorem last_session (hp : p ∈ s.procs) (hne : p ≠ proc_sched) (hk : s.p_sessp p = some k)
    (hone : s.s_ref k = 1) : k ≠ session0 ∧ s.s_sidp k ≠ pid0 := by
  have hkmem := h.sessions.live p hp k hk
  have hk0 : k ≠ session0 := by
    rintro rfl
    have htwo : 1 < tally s.procs s.p_sessp (some session0) :=
      one_lt_card.mpr ⟨p, mem_filter.mpr ⟨hp, hk⟩, _, mem_filter.mpr ⟨h.sched, h.sched_sessp⟩, hne⟩
    have href := (h.sessions.ref session0 hkmem).1
    omega
  exact ⟨hk0, fun heq => hk0 (h.ties.sid_inj k hkmem _ h.sess0 (heq.trans h.sched_sidp.symm))⟩

theorem ne_sched (hlead : ∀ k ∈ s.sesss, s.s_sidp k ≠ s.p_pidp p) : p ≠ proc_sched := by
  rintro rfl
  exact hlead _ h.sess0 (h.sched_sidp.trans h.sched_pidp.symm)

/-! The steps. -/

theorem setmin (hmin : s.minpid = 0) : Inv v (pid_setmin s) birth := by
  have hnum := h.numbered
  refine { h with numbered := { hnum with min := ?_, start := fun heq => ?_ } }
  · have hlast := hnum.last
    have hstart := hnum.start hmin
    exact ⟨by simp only [pid_setmin]; omega, by simp only [pid_setmin]; omega⟩
  · have hlast := hnum.last
    simp only [pid_setmin] at heq
    omega

section

variable (hp : p ∈ s.procs)
include hp

theorem joins (hnone : s.p_pgidp p = none) (hk : s.p_sessp p = some k)
    (hg : g = s.p_pidp p ∨ ∃ q ∈ s.procs, s.p_pgidp q = some g ∧ s.p_sessp q = s.p_sessp p) :
    Inv v (pgjoin s p g) birth := by
  have hmem : g ∈ s.pids := by
    rcases hg with rfl | ⟨q, hq, hqg, -⟩
    · exact h.proc_pid hp
    · exact h.group_pid hq hqg
  have hle := h.ref_le hmem
  obtain ⟨pid_pgorphaned, heq⟩ := pgjoin_eq s p g
  rw [heq]
  refine { h with
    grouped := h.grouped.join hp hnone g
    ties := h.ties.join hp hnone hk hg
    booked := (h.booked.join hmem (by omega) s.pid_pglink p).congr fun a => ?_ }
  simp only [refs]
  omega

theorem leaves (hg : s.p_pgidp p = some g) (hlead : ∀ k ∈ s.sesss, s.s_sidp k ≠ s.p_pidp p) :
    ∃ t, Returns (fun fuel => pgexit fuel s p) t ∧ Inv v t birth := by
  have hpid0 : g = pid0 → 1 < refs s g := by
    rintro rfl
    have hrefs := h.pid0_refs
    have hone := h.group_ref hp hg
    omega
  obtain ⟨pids, pid_ref, pid_link, pidhash, p_pglink, pid_pglink, pid_pgorphaned, hret, hhash, hsub,
    hgroup, hbooks⟩ := pgexit_returns h.hashed h.grouped h.booked hp hg (h.group_pid hp hg) hpid0
  refine ⟨_, hret, { h with
    hashed := hhash
    grouped := hgroup
    named := h.named.mono hsub
    numbered := h.numbered.mono hsub
    ties := h.ties.leave hlead
    booked := hbooks.congr fun a => ?_ }⟩
  simp only [refs]
  omega

theorem adopts (hnone : s.p_sessp p = none) (hq : q ∈ s.procs) (hk : s.p_sessp q = some k) :
    Returns (fun _ => newproc_session s p q)
      (SESS_HOLD { s with p_sessp := update s.p_sessp p (some k) } k) ∧
    ∃ birth, Inv v (SESS_HOLD { s with p_sessp := update s.p_sessp p (some k) } k) birth := by
  have hkmem := h.sessions.live q hq k hk
  have hne : proc_sched ≠ p := by
    rintro rfl
    rw [h.sched_sessp] at hnone
    cases hnone
  refine ⟨⟨0, fun _ _ => by rw [newproc_session, hk, map_some]⟩, _, { h with
    sessions := h.sessions.adopt h.card_lt hp hnone hkmem
    ties := h.ties.adopt hp hnone k
    sched_sessp := ?_ }⟩
  exact (update_of_ne hne _ _).trans h.sched_sessp

section

variable (hne : p ≠ proc_sched) (hg : s.p_pgidp p = some g) (hk : s.p_sessp p = some k)
include hne hg hk

/-- A process that goes has left its group and given up its session; its pid structure stays. -/
theorem parts : ∃ s₁ pids pid_ref pid_link pidhash p_pglink pid_pglink pid_pgorphaned sesss s_ref,
      Returns (fun fuel => pgexit fuel s p) s₁ ∧ s₁.p_sessp p = some k ∧
      Returns (fun fuel => SESS_RELE fuel s₁ k) { s with
          pids := pids, pid_ref := pid_ref, pid_link := pid_link, pidhash := pidhash
          p_pglink := p_pglink, pid_pglink := pid_pglink, pid_pgorphaned := pid_pgorphaned
          p_pgidp := update s.p_pgidp p none
          sesss := sesss, s_ref := s_ref } ∧
      Hashed pids s.pid_id pid_link pidhash ∧ pids ⊆ s.pids ∧
      Grouped s.procs (update s.p_pgidp p none) p_pglink pid_pglink ∧
      sesss ⊆ s.sesss ∧ Sessions (s.procs.erase p) s.p_sessp sesss s_ref ∧
      (k ∈ sesss → s.s_ref k ≠ 1) ∧ s.p_pidp p ∈ pids ∧
      Booked pids pid_ref (fun a => refs s a - groupRef s.pid_pglink a + groupRef pid_pglink a -
        tally s.sesss s.s_sidp a + tally sesss s.s_sidp a) := by
  have hpid0 : g = pid0 → 1 < refs s g := by
    rintro rfl
    have hrefs := h.pid0_refs
    have hone := h.group_ref hp hg
    omega
  obtain ⟨pids₁, pid_ref₁, pid_link₁, pidhash₁, p_pglink, pid_pglink, pid_pgorphaned, hret₁, hhash₁,
    hsub₁, hgroup, hbooks₁⟩ :=
    pgexit_returns h.hashed h.grouped h.booked hp hg (h.group_pid hp hg) hpid0
  have hproc : 0 < tally s.procs s.p_pidp (s.p_pidp p) := tally_pos.mpr ⟨p, hp, rfl⟩
  have hsess : 0 < tally s.sesss s.s_sidp (s.s_sidp k) :=
    tally_pos.mpr ⟨k, h.sessions.live p hp k hk, rfl⟩
  have hnonneg := groupRef_nonneg pid_pglink
  let s₁ : State := { s with
    pids := pids₁, pid_ref := pid_ref₁, pid_link := pid_link₁, pidhash := pidhash₁
    p_pglink := p_pglink, pid_pglink := pid_pglink, pid_pgorphaned := pid_pgorphaned
    p_pgidp := update s.p_pgidp p none }
  have hsid : s₁.s_sidp k ∈ s₁.pids := by
    refine hbooks₁.mem ?_
    have hpos := hnonneg (s.s_sidp k)
    simp only [refs, s₁]
    omega
  obtain ⟨pids, pid_ref, pid_link, pidhash, sesss, s_ref, hret, hhash, hsub, hsubs, hsessions, hgone,
    hbooks⟩ := sess_rele_returns (s := s₁) hhash₁ hbooks₁ h.sessions h.card_lt hp hk hsid
      (h.last_session hp hne hk)
  have hpid : s.p_pidp p ∈ pids := by
    refine hbooks.mem ?_
    have hpos := hnonneg (s.p_pidp p)
    simp only [refs, s₁]
    omega
  exact ⟨s₁, pids, pid_ref, pid_link, pidhash, p_pglink, pid_pglink, pid_pgorphaned, sesss, s_ref,
    hret₁, hk, hret, hhash, hsub.trans hsub₁, hgroup, hsubs, hsessions, hgone, hpid, hbooks⟩

/-- A process exits. -/
theorem exits : ∃ t, Returns (fun fuel => pid_exit fuel s p) t ∧ Inv v t birth := by
  obtain ⟨s₁, pids₂, pid_ref₂, pid_link₂, pidhash₂, p_pglink, pid_pglink, pid_pgorphaned, sesss, s_ref,
    hret₁, hk₁, hret₂, hhash₂, hsub₂, hgroup, hsubs, hsessions, -, hpid, hbooks₂⟩ :=
    h.parts hp hne hg hk
  let s₃ : State := { s with
    pids := pids₂, pid_ref := pid_ref₂, pid_link := pid_link₂, pidhash := pidhash₂
    p_pglink := p_pglink, pid_pglink := pid_pglink, pid_pgorphaned := pid_pgorphaned
    p_pgidp := update s.p_pgidp p none
    sesss := sesss, s_ref := s_ref
    pid_prinactive := update s.pid_prinactive (s.p_pidp p) true
    procdir := update s.procdir (s.pid_prslot (s.p_pidp p)) (.next s.procentfree)
    procentfree := some (s.pid_prslot (s.p_pidp p)) }
  obtain ⟨pids, pid_ref, pid_link, pidhash, hret₃, hhash, hsub, hbooks⟩ :=
    pid_rele_returns (s := s₃) hhash₂ hbooks₂ hpid fun heq => absurd heq (h.not_pid0 hp hne)
  obtain ⟨prev, hfind, hactive⟩ := h.active.exit hp
  have hother : ∀ q ∈ s.procs.erase p, s.p_pidp q ≠ s.p_pidp p := fun q hq heq =>
    ne_of_mem_erase hq (h.ties.pid_inj q (mem_of_mem_erase hq) p hp heq)
  have hcount : s.nproc - 1 = (s.procs.erase p).card := by
    rw [card_erase_of_mem hp, h.count]
  refine ⟨_, hret₁.bind (Returns.bindConst hk₁ (hret₂.bind (hret₃.bind (hfind.map _)))), {
    hashed := hhash
    grouped := hgroup.exit (update_self _ _ _)
    slotted := h.slotted.give hp
    active := hactive
    count := hcount
    named := ⟨fun q hq => ?_, fun a ha hact => ?_⟩
    numbered := h.numbered.mono (hsub.trans hsub₂)
    booked := hbooks.congr fun a => ?_
    sessions := hsessions
    ties := h.ties.exit hsubs
    sched := mem_erase.mpr ⟨Ne.symm hne, h.sched⟩
    sched_pidp := h.sched_pidp
    sched_sessp := h.sched_sessp
    sched_sidp := h.sched_sidp }⟩
  · exact (update_of_ne (hother q hq) _ _).trans (h.named.active q (mem_of_mem_erase hq))
  · have hap : a ≠ s.p_pidp p := by
      rintro rfl
      have htrue : update s.pid_prinactive (s.p_pidp p) true (s.p_pidp p) = true := update_self _ _ _
      exact absurd (htrue.symm.trans hact) nofun
    have hact' : s.pid_prinactive a = false := (update_of_ne hap _ _).symm.trans hact
    obtain ⟨q, hq, rfl⟩ := h.named.proc a (hsub₂ (hsub ha)) hact'
    refine ⟨q, mem_erase.mpr ⟨?_, hq⟩, rfl⟩
    rintro rfl
    exact hap rfl
  · have herase := tally_erase (f := s.p_pidp) (b := a) hp
    by_cases hap : a = s.p_pidp p
    · subst hap
      rw [if_pos rfl] at herase
      rw [update_self]
      simp only [refs, s₃]
      omega
    · rw [if_neg (Ne.symm hap)] at herase
      rw [update_of_ne hap]
      simp only [refs, s₃]
      omega

end

/-- A process that leads no session makes one. -/
theorem creates (hg : s.p_pgidp p = some g) (hk : s.p_sessp p = some k)
    (hlead : ∀ l ∈ s.sesss, s.s_sidp l ≠ s.p_pidp p) {sp : Nat}
    (hnew : sp ∈ s.sesss → s.p_sessp p = some sp ∧ s.s_ref sp = 1) :
    ∃ t, Returns (fun fuel => sess_create fuel s p sp) t ∧ Inv v t birth := by
  have hne := h.ne_sched hlead
  obtain ⟨s₁, pids, pid_ref, pid_link, pidhash, p_pglink, pid_pglink, pid_pgorphaned, sesss, s_ref,
    hret₁, hk₁, hret₂, hhash, hsub, hgroup, hsubs, hsessions, hgone, hpid, hbooks⟩ :=
    h.parts hp hne hg hk
  have hspnew : sp ∉ sesss := by
    intro hmem
    obtain ⟨heq, hone⟩ := hnew (hsubs hmem)
    obtain rfl := some.inj (hk.symm.trans heq)
    exact hgone hmem hone
  have h0 : session0 ≠ sp := by
    rintro rfl
    obtain ⟨heq, hone⟩ := hnew h.sess0
    exact (h.last_session hp hne heq hone).1 rfl
  -- the session is linked to the process, and then the process joins its own group
  let s₃ : State := { s with
    pids := pids, pid_ref := pid_ref, pid_link := pid_link, pidhash := pidhash
    p_pglink := p_pglink, pid_pglink := pid_pglink, pid_pgorphaned := pid_pgorphaned
    p_pgidp := update s.p_pgidp p none
    sesss := insert sp sesss
    s_sidp := update s.s_sidp sp (s.p_pidp p)
    s_ref := update s_ref sp 1
    s_vp := update s.s_vp sp none
    p_sessp := update s.p_sessp p (some sp) }
  have hret : Returns (fun fuel => sess_create fuel s p sp)
      (PID_HOLD (pgjoin s₃ p (s.p_pidp p)) ((pgjoin s₃ p (s.p_pidp p)).s_sidp sp)) :=
    hret₁.bind (Returns.bindConst hk₁ (hret₂.map _))
  obtain ⟨pid_pgorphaned', hjoin⟩ := pgjoin_eq s₃ p (s.p_pidp p)
  have hself : s₃.s_sidp sp = s.p_pidp p := update_self _ _ _
  rw [hjoin] at hret
  have hsmall : pid_ref (s.p_pidp p) ≤ 7 := by
    have hle := Ties.refs_le h.ties (s.p_pidp p)
    have href := (hbooks.ref _ hpid).1
    have hmono := tally_mono (f := s.s_sidp) (b := s.p_pidp p) hsubs
    have hbefore := groupRef_nonneg s.pid_pglink (s.p_pidp p)
    have hafter : groupRef pid_pglink (s.p_pidp p) ≤ 1 := by
      unfold groupRef
      split_ifs <;> omega
    omega
  have hbooks₃ := hbooks.join hpid (by omega) pid_pglink p
  have hsmall₃ := (hbooks₃.ref _ hpid).1
  have hone : groupRef (update pid_pglink (s.p_pidp p) (some p)) (s.p_pidp p) = 1 := by
    rw [groupRef_update, if_pos rfl]
  have hbefore := groupRef_nonneg pid_pglink (s.p_pidp p)
  have href := (hbooks.ref _ hpid).1
  have hbooks₄ := hbooks₃.hold hpid (by omega)
  have hties := ((h.ties.leave hlead).mono (Finset.Subset.refl _) hsubs).create hp hspnew
    (fun l hl => hlead l (hsubs hl)) (fun q hq hqp => hsessions.live q (mem_erase.mpr ⟨hqp, hq⟩))
    fun t ht heq => by
      obtain ⟨l, hl, hlp⟩ := h.ties.held t ht p hp heq
      exact hlead l (h.sessions.live p hp l hl) hlp
  refine ⟨_, hret, ?_⟩
  simp only [PID_HOLD, hself]
  refine { h with
    hashed := hhash
    grouped := hgroup.join hp (update_self _ _ _) (s.p_pidp p)
    named := h.named.mono hsub
    numbered := h.numbered.mono hsub
    booked := hbooks₄.congr fun a => ?_
    sessions := hsessions.create hp hspnew
    ties := hties
    sched_sessp := (update_of_ne (Ne.symm hne) _ _).trans h.sched_sessp
    sched_sidp := (update_of_ne h0 _ _).trans h.sched_sidp }
  have hins := tally_insert (f := s.s_sidp) (b := a) hspnew (s.p_pidp p)
  by_cases ha : a = s.p_pidp p
  · subst ha
    rw [if_pos rfl] at hins
    rw [update_self]
    simp only [refs, s₃]
    omega
  · rw [if_neg (Ne.symm ha)] at hins
    rw [update_of_ne ha]
    simp only [refs, s₃]
    omega

end

/-! Controlling terminals. -/

theorem opens (hstp : stp ∉ s.streams) : Inv v { s with
      streams := insert stp s.streams
      sd_sidp := update s.sd_sidp stp none
      sd_pgidp := update s.sd_pgidp stp none } birth := by
  refine { h with
    ties := h.ties.stropen hstp
    booked := h.booked.congr fun a => ?_ }
  have hsid := tally_insert (f := s.sd_sidp) (b := some a) hstp none
  have hpg := tally_insert (f := s.sd_pgidp) (b := some a) hstp none
  rw [if_neg nofun] at hsid hpg
  simp only [refs]
  omega

theorem closes (hstp : stp ∈ s.streams) (hnone : s.sd_sidp stp = none) :
    Inv v { s with streams := s.streams.erase stp } birth := by
  have hnone' := (h.ties.both stp hstp).mp hnone
  refine { h with
    ties := h.ties.strclose hnone
    booked := h.booked.congr fun a => ?_ }
  have hsid := tally_erase (f := s.sd_sidp) (b := some a) hstp
  have hpg := tally_erase (f := s.sd_pgidp) (b := some a) hstp
  rw [hnone, if_neg nofun] at hsid
  rw [hnone', if_neg nofun] at hpg
  simp only [refs]
  omega

theorem allots (hstp : stp ∈ s.streams) (hnone : s.sd_sidp stp = none) (hk : k ∈ s.sesss)
    (hvp : s.s_vp k = none) :
    Inv v (stralloctty { s with s_vp := update s.s_vp k (some stp) } k stp) birth := by
  have hnone' := (h.ties.both stp hstp).mp hnone
  have hmem := h.sess_pid hk
  have hle := h.ref_le hmem
  have hself : update s.pid_ref (s.s_sidp k) ((s.pid_ref (s.s_sidp k) + 1) % 64)
      (s.s_sidp k) = (s.pid_ref (s.s_sidp k) + 1) % 64 := update_self _ _ _
  have hbooks := (h.booked.hold hmem (by omega)).hold hmem (by omega)
  simp only [stralloctty, PID_HOLD]
  refine { h with
    ties := h.ties.alloctty hk hstp hnone hvp
    booked := hbooks.congr fun a => ?_ }
  have hsid := tally_update (f := s.sd_sidp) (b := some a) hstp (some (s.s_sidp k))
  have hpg := tally_update (f := s.sd_pgidp) (b := some a) hstp (some (s.s_sidp k))
  rw [hnone, if_neg (some_ne_none a).symm] at hsid
  rw [hnone', if_neg (some_ne_none a).symm] at hpg
  by_cases ha : a = s.s_sidp k
  · subst ha
    rw [if_pos rfl] at hsid hpg
    simp only [update_self, refs]
    omega
  · rw [if_neg fun heq => ha (some.inj heq).symm] at hsid hpg
    rw [update_of_ne ha, update_of_ne ha]
    simp only [refs]
    omega

theorem frees (hk : k ∈ s.sesss) (hvp : s.s_vp k = some stp) :
    ∃ t, Returns (fun fuel => freectty fuel s k) t ∧ Inv v t birth := by
  obtain ⟨hstp, hsid⟩ := (h.ties.tty k hk stp).mp hvp
  obtain ⟨g, hg⟩ : ∃ g, s.sd_pgidp stp = some g := by
    rw [← ne_none_iff_exists']
    intro hnone
    rw [(h.ties.both stp hstp).mpr hnone] at hsid
    cases hsid
  have hsidpos : 0 < tally s.streams s.sd_sidp (some (s.s_sidp k)) := tally_pos.mpr ⟨stp, hstp, hsid⟩
  have hpgpos : 0 < tally s.streams s.sd_pgidp (some g) := tally_pos.mpr ⟨stp, hstp, hg⟩
  have hsess : 0 < tally s.sesss s.s_sidp (s.s_sidp k) := tally_pos.mpr ⟨k, hk, rfl⟩
  have hnonneg := groupRef_nonneg s.pid_pglink
  have hgmem : g ∈ s.pids := by
    refine h.booked.mem ?_
    have hpos := hnonneg g
    simp only [refs]
    omega
  have hrefs := h.pid0_refs
  have hpos0 := hnonneg pid0
  have hpid0 : g = pid0 → 1 < refs s g := by
    rintro rfl
    omega
  obtain ⟨pids₁, pid_ref₁, pid_link₁, pidhash₁, hret₁, hhash₁, hsub₁, hbooks₁⟩ :=
    pid_rele_returns h.hashed h.booked hgmem hpid0
  -- the session still refers to the leader's pid structure
  have hleft : 1 < update (refs s) g (refs s g - 1) (s.s_sidp k) := by
    have hpos := hnonneg (s.s_sidp k)
    by_cases heq : s.s_sidp k = g
    · subst heq
      rw [update_self]
      simp only [refs]
      omega
    · rw [update_of_ne heq]
      simp only [refs]
      omega
  let s₁ : State := { s with
    pids := pids₁, pid_ref := pid_ref₁, pid_link := pid_link₁, pidhash := pidhash₁ }
  obtain ⟨pids, pid_ref, pid_link, pidhash, hret, hhash, hsub, hbooks⟩ :=
    pid_rele_returns (s := s₁) hhash₁ hbooks₁ (hbooks₁.mem (by omega)) fun _ => hleft
  have hstr : Returns (fun fuel => strfreectty fuel s stp) _ :=
    Returns.bindConst hg (Returns.bindConst hsid (hret₁.bind (hret.map _)))
  refine ⟨_, Returns.bindConst hvp (hstr.map _), { h with
    hashed := hhash
    named := h.named.mono (hsub.trans hsub₁)
    numbered := h.numbered.mono (hsub.trans hsub₁)
    ties := h.ties.freectty hk hvp
    booked := hbooks.congr fun a => ?_ }⟩
  have hsidt := tally_update (f := s.sd_sidp) (b := some a) hstp none
  have hpgt := tally_update (f := s.sd_pgidp) (b := some a) hstp none
  simp only [hsid, hg, some.injEq, reduceCtorEq, if_false, add_zero] at hsidt hpgt
  rw [update_sub_one, update_sub_one]
  simp only [refs, s₁]
  split_ifs at hsidt hpgt ⊢ <;> omega

/-- The foreground process group of a terminal is replaced by one of the same session. -/
theorem replaces (hstp : stp ∈ s.streams) (hsid : s.sd_sidp stp = some (s.s_sidp k))
    (hg : s.sd_pgidp stp = some g) (hq : q ∈ s.procs) (ha : s.p_pgidp q = some a)
    (hqk : s.p_sessp q = some k) (hne : a ≠ g) :
    ∃ u, Returns (fun fuel => PID_RELE fuel s g) u ∧ u.p_pgidp q = some a ∧
      Inv v (PID_HOLD { u with sd_pgidp := update u.sd_pgidp stp (some a) } a) birth := by
  have hpgpos : 0 < tally s.streams s.sd_pgidp (some g) := tally_pos.mpr ⟨stp, hstp, hg⟩
  have hgmem : g ∈ s.pids := by
    refine h.booked.mem ?_
    have hpos := groupRef_nonneg s.pid_pglink g
    simp only [refs]
    omega
  have hpid0 : g = pid0 → 1 < refs s g := by
    rintro rfl
    have hrefs := h.pid0_refs
    have hpos := groupRef_nonneg s.pid_pglink pid0
    omega
  obtain ⟨pids, pid_ref, pid_link, pidhash, hret, hhash, hsub, hbooks⟩ :=
    pid_rele_returns h.hashed h.booked hgmem hpid0
  have hsame : update (refs s) g (refs s g - 1) a = refs s a := update_of_ne hne _ _
  have hleft : 0 < refs s a := by
    have hone := h.group_ref hq ha
    simp only [refs]
    omega
  have hmem : a ∈ pids := hbooks.mem (by omega)
  have hle := Ties.refs_le h.ties a
  have href := (hbooks.ref a hmem).1
  have hbooks' := hbooks.hold hmem (by omega)
  refine ⟨_, hret, ha, { h with
    hashed := hhash
    named := h.named.mono hsub
    numbered := h.numbered.mono hsub
    ties := h.ties.foreground hstp hq ha hqk hsid
    booked := hbooks'.congr fun b => ?_ }⟩
  have hpg := tally_update (f := s.sd_pgidp) (b := some b) hstp (some a)
  rw [hg] at hpg
  simp only [some.injEq] at hpg
  rw [hsame]
  by_cases hb : b = a
  · subst hb
    rw [if_neg (Ne.symm hne), if_pos rfl] at hpg
    simp only [update_self, refs, PID_HOLD]
    omega
  · rw [if_neg (Ne.symm hb)] at hpg
    rw [update_of_ne hb, update_sub_one]
    simp only [refs, PID_HOLD]
    split_ifs at hpg ⊢ <;> omega

/-- `TIOCSPGRP`, whether it is refused or not. -/
theorem sets (hstp : stp ∈ s.streams) (hk : s.p_sessp p = some k) (pgrp : Int) :
    ∃ t, Returns (fun fuel => tiocspgrp fuel s p stp pgrp) t ∧ Inv v t birth := by
  have hbody : ∀ {u}, Returns (fun fuel =>
      if s.sd_sidp stp ≠ some (s.s_sidp k) then some s
      else
        (s.sd_pgidp stp).bind fun pgidp =>
        if pgrp = s.pid_id pgidp ∨ pgrp ≤ 0 ∨ MAXPID ≤ pgrp then some s
        else (pgfind fuel s pgrp).bind fun found => setpgidp fuel s k stp pgidp found) u →
      Returns (fun fuel => tiocspgrp fuel s p stp pgrp) u := fun hu => Returns.bindConst hk hu
  by_cases hsid : s.sd_sidp stp = some (s.s_sidp k)
  · obtain ⟨g, hg⟩ : ∃ g, s.sd_pgidp stp = some g := by
      rw [← ne_none_iff_exists']
      intro hnone
      rw [(h.ties.both stp hstp).mpr hnone] at hsid
      cases hsid
    by_cases hbad : pgrp = s.pid_id g ∨ pgrp ≤ 0 ∨ MAXPID ≤ pgrp
    · refine ⟨s, hbody ⟨0, fun fuel _ => ?_⟩, h⟩
      simp only [hsid, hg, bind_some, if_pos hbad]
      exact if_neg (not_not_intro rfl)
    obtain ⟨found, hfound, hiff⟩ := h.hashed.lookup pgrp
    have hpgfind : Returns (fun fuel => pgfind fuel s pgrp) (found.bind s.pid_pglink) :=
      hfound.map fun pidp => pidp.bind s.pid_pglink
    have hrest : ∀ {u}, Returns (fun fuel =>
        setpgidp fuel s k stp g (found.bind s.pid_pglink)) u →
        Returns (fun fuel => tiocspgrp fuel s p stp pgrp) u := fun hu =>
      hbody ((Returns.bindConst hg ((hpgfind.bind hu).of_eq fun fuel => if_neg hbad)).of_eq
        fun fuel => if_neg (not_not_intro hsid))
    cases hq : found.bind s.pid_pglink with
    | none => exact ⟨s, hrest ⟨0, fun fuel _ => congrArg (setpgidp fuel s k stp g) hq⟩, h⟩
    | some q =>
      rw [hq] at hrest
      by_cases hqk : s.p_sessp q = some k
      · obtain ⟨a, rfl, hfirst⟩ := bind_eq_some_iff.mp hq
        obtain ⟨hqmem, hqa⟩ := h.grouped.first hfirst
        have hid := ((hiff a).mp rfl).2
        have hne : a ≠ g := by
          rintro rfl
          exact hbad (.inl hid.symm)
        obtain ⟨u, hret, hu, hinv⟩ := h.replaces hstp hsid hg hqmem hqa hqk hne
        have hjoin : Returns (fun fuel => (PID_RELE fuel s g).bind fun s =>
            (s.p_pgidp q).map fun pgidp => PID_HOLD
              { s with sd_pgidp := update s.sd_pgidp stp (some pgidp) } pgidp) _ :=
          hret.bind ⟨0, fun _ _ => by rw [hu, map_some]⟩
        exact ⟨_, hrest (hjoin.of_eq fun fuel => if_neg (not_not_intro hqk)), hinv⟩
      · exact ⟨s, hrest ⟨0, fun fuel _ => if_pos hqk⟩, h⟩
  · exact ⟨s, hbody ⟨0, fun fuel _ => if_pos hsid⟩, h⟩

end Inv

/-! Assigning ids. -/

variable {fuel : Nat} {id : Int}

theorem nextPid_spec {n : Nat} {mpid : Int} (hmpid : 0 ≤ mpid) (hmin : 0 ≤ s.minpid ∧ s.minpid ≤ MAXPID)
    (hid : nextPid fuel s n mpid = some id) :
    pid_lookup fuel s id = some none ∧ 0 ≤ id ∧ id ≤ MAXPID ∧ (s.minpid = 0 → id < MAXPID) := by
  induction n generalizing mpid with
  | zero => cases hid
  | succ n ih =>
    rw [nextPid] at hid
    have hnext : 0 ≤ (if MAXPID ≤ mpid + 1 then s.minpid else mpid + 1) ∧
        (if MAXPID ≤ mpid + 1 then s.minpid else mpid + 1) ≤ MAXPID ∧
        (s.minpid = 0 → (if MAXPID ≤ mpid + 1 then s.minpid else mpid + 1) < MAXPID) := by
      unfold MAXPID at hmin ⊢
      split_ifs <;> omega
    obtain ⟨pidp, hlookup, hrest⟩ := bind_eq_some_iff.mp hid
    by_cases hnone : pidp = none
    · rw [if_pos hnone] at hrest
      obtain rfl := some.inj hrest
      exact ⟨hnone ▸ hlookup, hnext⟩
    · rw [if_neg hnone] at hrest
      exact ih hnext.1 hrest

/-- `pid_assign` fails and changes nothing, or enters a new process. -/
theorem pid_assign_cases {c : Fork} (h : pid_assign v fuel s c = some (t, id)) :
    (t = s ∧ id = -1) ∨ ∃ prp pidp slot link mpid, c.prp = some prp ∧ c.pidp = some pidp ∧
      s.nproc ≠ v.v_proc ∧ (mpid = c.random ∨ mpid = s.mpid) ∧ nextPid fuel s fuel mpid = some id ∧
      s.procentfree = some slot ∧ s.procdir slot = .next link ∧
      t = enter (kmem_zalloc s prp pidp) prp pidp slot link id := by
  have hfail : ∀ {x}, some (s, (-1 : Int)) = some x → x.1 = s ∧ x.2 = -1 := by
    rintro x hx
    obtain rfl := some.inj hx
    exact ⟨rfl, rfl⟩
  rw [pid_assign] at h
  by_cases hfull : v.v_proc - 1 ≤ s.nproc ∧ (s.nproc = v.v_proc ∨ c.pm_denied = true)
  · rw [if_pos hfull] at h
    exact .inl (hfail h)
  rw [if_neg hfull] at h
  have hroom : s.nproc ≠ v.v_proc := fun heq => hfull ⟨by omega, .inl heq⟩
  obtain ⟨active, -, h⟩ := bind_eq_some_iff.mp h
  by_cases hmany : (if s.p_uid proc_sched = c.cr_ruid ∨ s.p_uid proc_sched = c.cr_uid then
      2 * v.v_maxup else v.v_maxup) ≤ (active.countP fun prp => s.p_uid prp = c.cr_ruid) ∧
        c.pm_denied = true
  · rw [if_pos hmany] at h
    exact .inl (hfail h)
  · rw [if_neg hmany] at h
    cases hprp : c.prp with
    | none =>
      rw [hprp] at h
      by_cases hok : c.np_failok = true
      · exact .inl (hfail ((if_pos hok).symm.trans h))
      · exact absurd ((if_neg hok).symm.trans h) nofun
    | some prp =>
      cases hpidp : c.pidp with
      | none =>
        rw [hprp, hpidp] at h
        by_cases hok : c.np_failok = true
        · exact .inl (hfail ((if_pos hok).symm.trans h))
        · exact absurd ((if_neg hok).symm.trans h) nofun
      | some pidp =>
        rw [hprp, hpidp] at h
        obtain ⟨id', hid, h⟩ := bind_eq_some_iff.mp h
        obtain ⟨slot, hslot, h⟩ := bind_eq_some_iff.mp h
        cases hlink : s.procdir slot with
        | proc pe_proc =>
          rw [hlink] at h
          cases h
        | next link =>
          rw [hlink] at h
          obtain ⟨rfl, rfl⟩ := Prod.mk.inj (some.inj h)
          refine .inr ⟨prp, pidp, slot, link, _, rfl, rfl, hroom, ?_, hid, hslot, hlink, rfl⟩
          split_ifs
          · exact .inl rfl
          · exact .inr rfl

theorem enter_zalloc (prp pidp slot : Nat) (link : Option Nat) (mpid : Int) :
    enter (kmem_zalloc s prp pidp) prp pidp slot link mpid = { s with
        pids := insert pidp s.pids
        pid_prinactive := update s.pid_prinactive pidp false
        pid_pgorphaned := update s.pid_pgorphaned pidp false
        pid_ref := update s.pid_ref pidp 1
        pid_prslot := update s.pid_prslot pidp slot
        pid_id := update s.pid_id pidp mpid
        pid_pglink := update s.pid_pglink pidp none
        pid_link := update s.pid_link pidp (s.pidhash (hashpid mpid))
        pidhash := update s.pidhash (hashpid mpid) (some pidp)
        procs := insert prp s.procs
        p_stat := update s.p_stat prp .sidl
        p_uid := update s.p_uid prp 0
        p_parent := update s.p_parent prp none
        p_pidp := update s.p_pidp prp pidp
        p_pgidp := update s.p_pgidp prp none
        p_pglink := update s.p_pglink prp none
        p_sessp := update s.p_sessp prp none
        p_next := update s.p_next prp s.practive
        practive := some prp
        nproc := s.nproc + 1
        mpid := mpid
        procentfree := link
        procdir := update s.procdir slot (.proc prp) } := by
  simp only [enter, kmem_zalloc, PID_HOLD, update_self, update_idem, zero_add, Nat.one_mod]

namespace Inv

variable (h : Inv v s birth)
include h

/-- What no pid structure has as its id is the id of no process, process group or session. -/
theorem unused (hid : pid_lookup fuel s id = some none) : ∀ a ∈ s.pids, s.pid_id a ≠ id := by
  obtain ⟨found, hfound, hiff⟩ := h.hashed.lookup id
  have hnone : found = none := hfound.unique (seek_returns hid)
  intro a ha heq
  rw [(hiff a).mpr ⟨ha, heq⟩] at hnone
  cases hnone

theorem enters {prp pidp slot : Nat} {link : Option Nat} (hprp : prp ∉ s.procs) (hpidp : pidp ∉ s.pids)
    (hroom : s.nproc ≠ v.v_proc) (hslot : s.procentfree = some slot)
    (hlink : s.procdir slot = .next link) (hunused : ∀ a ∈ s.pids, s.pid_id a ≠ id)
    (hid : 0 ≤ id ∧ id ≤ MAXPID ∧ (s.minpid = 0 → id < MAXPID)) :
    Inv v (enter (kmem_zalloc s prp pidp) prp pidp slot link id) birth := by
  rw [enter_zalloc]
  have hfull : s.procs.card < v.v_proc := by
    have hle := h.slotted.card_le
    have hcount := h.count
    omega
  obtain ⟨i, link', hi, hlink', htake⟩ := h.slotted.take hfull hprp
  obtain rfl : slot = i := some.inj (hslot.symm.trans hi)
  obtain rfl : link = link' := Procent.next.inj (hlink.symm.trans hlink')
  have hnone := h.booked.gone pidp hpidp
  have hnonneg := groupRef_nonneg s.pid_pglink pidp
  simp only [refs] at hnone
  have hproc : ∀ q ∈ s.procs, s.p_pidp q ≠ pidp := tally_eq_zero.mp (by omega)
  have hsess : ∀ k ∈ s.sesss, s.s_sidp k ≠ pidp := tally_eq_zero.mp (by omega)
  have hsid : ∀ t ∈ s.streams, s.sd_sidp t ≠ some pidp := tally_eq_zero.mp (by omega)
  have hpg : ∀ t ∈ s.streams, s.sd_pgidp t ≠ some pidp := tally_eq_zero.mp (by omega)
  have hgroup : ∀ q ∈ s.procs, s.p_pgidp q ≠ some pidp := fun q hq heq =>
    hpidp (h.group_pid hq heq)
  have hne : ∀ q ∈ s.procs, q ≠ prp := fun q hq => ne_of_mem_of_not_mem hq hprp
  have hpne : ∀ a ∈ s.pids, a ≠ pidp := fun a ha => ne_of_mem_of_not_mem ha hpidp
  have hsched := hne _ h.sched
  refine {
    hashed := h.hashed.insert hpidp hunused
    grouped := h.grouped.enter hprp hgroup
    slotted := htake _ ?_ fun q hq => ?_
    active := h.active.enter hprp
    count := ?_
    named := ⟨?_, ?_⟩
    numbered := ⟨?_, h.numbered.min, ⟨hid.1, hid.2.1⟩, hid.2.2⟩
    booked := ⟨?_, fun a ha => ?_⟩
    sessions := h.sessions.enter hprp
    ties := h.ties.enter hprp hproc hgroup hsess fun t ht => ⟨hsid t ht, hpg t ht⟩
    sched := mem_insert_of_mem h.sched
    sched_pidp := (update_of_ne hsched _ _).trans h.sched_pidp
    sched_sessp := (update_of_ne hsched _ _).trans h.sched_sessp
    sched_sidp := h.sched_sidp }
  · simp only [update_self]
  · simp only [update_of_ne (hne q hq), update_of_ne (hproc q hq)]
  · simp only [card_insert_of_notMem hprp, h.count]
  · refine (forall_mem_insert _ _ _).mpr ⟨?_, fun q hq => ?_⟩
    · simp only [update_self]
    · simp only [update_of_ne (hne q hq), update_of_ne (hproc q hq)]
      exact h.named.active q hq
  · refine (forall_mem_insert _ _ _).mpr ⟨fun _ => ?_, fun a ha hact => ?_⟩
    · exact ⟨prp, mem_insert_self _ _, update_self _ _ _⟩
    · simp only [update_of_ne (hpne a ha)] at hact
      obtain ⟨q, hq, hqa⟩ := h.named.proc a ha hact
      exact ⟨q, mem_insert_of_mem hq, (update_of_ne (hne q hq) _ _).trans hqa⟩
  · refine (forall_mem_insert _ _ _).mpr ⟨?_, fun a ha => ?_⟩
    · simp only [update_self]
      exact ⟨hid.1, hid.2.1⟩
    · simp only [update_of_ne (hpne a ha)]
      exact h.numbered.ids a ha
  · refine (forall_mem_insert _ _ _).mpr ⟨?_, fun a ha => ?_⟩
    · have hins := tally_insert (f := s.p_pidp) (b := pidp) hprp pidp
      rw [if_pos rfl] at hins
      simp only [update_self, refs, groupRef, reduceIte]
      exact ⟨by omega, Nat.one_pos⟩
    · have hins := tally_insert (f := s.p_pidp) (b := a) hprp pidp
      rw [if_neg (Ne.symm (hpne a ha))] at hins
      have href := h.booked.ref a ha
      simp only [refs, groupRef] at href
      simp only [update_of_ne (hpne a ha), refs, groupRef]
      exact ⟨by omega, href.2⟩
  · have hap : a ≠ pidp := fun heq => ha (heq ▸ mem_insert_self _ _)
    have hins := tally_insert (f := s.p_pidp) (b := a) hprp pidp
    rw [if_neg hap.symm] at hins
    have hgone := h.booked.gone a fun hmem => ha (mem_insert_of_mem hmem)
    simp only [refs, groupRef] at hgone
    simp only [update_of_ne hap, refs, groupRef]
    omega

/-- `pid_assign` keeps the table in order, and what it returns is in use as no id. -/
theorem assigns {c : Fork} (hprp : ∀ prp, c.prp = some prp → prp ∉ s.procs)
    (hpidp : ∀ pidp, c.pidp = some pidp → pidp ∉ s.pids) (hrandom : 0 ≤ c.random)
    (hret : pid_assign v fuel s c = some (t, id)) : Inv v t birth ∧ ∀ a ∈ s.pids, s.pid_id a ≠ id := by
  rcases pid_assign_cases hret with ⟨rfl, rfl⟩ |
    ⟨prp, pidp, slot, link, mpid, hprp', hpidp', hroom, hmpid, hnext, hslot, hlink, rfl⟩
  · refine ⟨h, fun a ha heq => ?_⟩
    have hid := (h.numbered.ids a ha).1
    omega
  · have hpos : 0 ≤ mpid := by
      rcases hmpid with rfl | rfl
      · exact hrandom
      · exact h.numbered.last.1
    obtain ⟨hlookup, hid⟩ := nextPid_spec hpos h.numbered.min hnext
    have hunused := h.unused hlookup
    exact ⟨h.enters (hprp prp hprp') (hpidp pidp hpidp') hroom hslot hlink hunused hid, hunused⟩

end Inv

end Svr42.Proc
