import Svr42.PidRuns

/-! The process table after any run: ids are not given twice, pid structures live as long as something
refers to them, and the slots of the directory are those of the live processes. -/

namespace Svr42.Proc
open List Option

variable {v : Var} {s s₀ t : State} {birth : Nat → Nat} {event : Event} {events : List Event}

namespace Inv

variable (h : Inv v s birth)
include h

/-- Every call that the callers make, other than `pid_assign`, returns. -/
theorem call_returns (hallowed : Protocol s event) (hassign : ∀ c, event ≠ .pid_assign c) :
    ∃ t, Returns (fun fuel => call v fuel s event) t ∧ ∃ birth, Inv v t birth := by
  cases event with
  | pid_setmin => exact ⟨_, Returns.const _, birth, h.setmin hallowed⟩
  | pid_assign c => exact absurd rfl (hassign c)
  | newproc_session cp pp =>
    obtain ⟨hcp, hnone, hpp, hsess⟩ := hallowed
    obtain ⟨k, hk⟩ := ne_none_iff_exists'.mp hsess
    exact ⟨_, h.adopts hcp hnone hpp hk⟩
  | pgjoin p pgp =>
    obtain ⟨hp, hnone, hsess, hg⟩ := hallowed
    obtain ⟨k, hk⟩ := ne_none_iff_exists'.mp hsess
    exact ⟨_, Returns.const _, birth, h.joins hp hnone hk hg⟩
  | pgexit p =>
    obtain ⟨hp, hgroup, hlead⟩ := hallowed
    obtain ⟨g, hg⟩ := ne_none_iff_exists'.mp hgroup
    obtain ⟨t, hret, hinv⟩ := h.leaves hp hg fun k hk heq =>
      hlead k (h.ties.leader p hp k hk heq).1 heq
    exact ⟨t, hret, birth, hinv⟩
  | sess_create pp sp =>
    obtain ⟨hp, hgroup, hsess, hlead, hnew⟩ := hallowed
    obtain ⟨g, hg⟩ := ne_none_iff_exists'.mp hgroup
    obtain ⟨k, hk⟩ := ne_none_iff_exists'.mp hsess
    obtain ⟨t, hret, hinv⟩ := h.creates hp hg hk (fun l hl heq => by
      have hl' := h.ties.leader pp hp l hl heq
      exact hlead.elim (fun hne => hne hl'.2) fun hne => hne l hl'.1 heq) hnew
    exact ⟨t, hret, birth, hinv⟩
  | pid_exit p =>
    obtain ⟨hp, hne, hgroup, hsess⟩ := hallowed
    obtain ⟨g, hg⟩ := ne_none_iff_exists'.mp hgroup
    obtain ⟨k, hk⟩ := ne_none_iff_exists'.mp hsess
    obtain ⟨t, hret, hinv⟩ := h.exits hp hne hg hk
    exact ⟨t, hret, birth, hinv⟩
  | stropen stp => exact ⟨_, Returns.const _, birth, h.opens hallowed⟩
  | strclose stp =>
    obtain ⟨hstp, hnone⟩ := hallowed
    refine ⟨_, ⟨0, fun fuel _ => ?_⟩, birth, h.closes hstp hnone⟩
    exact if_pos ⟨hnone, (h.ties.both stp hstp).mp hnone⟩
  | strctty pp stp =>
    obtain ⟨hp, hsess, hstp⟩ := hallowed
    obtain ⟨k, hk⟩ := ne_none_iff_exists'.mp hsess
    have hret : Returns (fun fuel => call v fuel s (.strctty pp stp)) _ :=
      ⟨0, fun fuel _ => congrArg (Option.map _) hk⟩
    refine ⟨_, hret, birth, ?_⟩
    dsimp only
    split_ifs with hfree
    · exact h.allots hstp hfree.1 (h.sessions.live pp hp k hk) hfree.2.2
    · exact h
  | freectty sp =>
    obtain ⟨hsp, hvp⟩ := hallowed
    obtain ⟨stp, hstp⟩ := ne_none_iff_exists'.mp hvp
    obtain ⟨t, hret, hinv⟩ := h.frees hsp hstp
    exact ⟨t, hret, birth, hinv⟩
  | tiocspgrp p stp pgrp =>
    obtain ⟨-, hsess, hstp⟩ := hallowed
    obtain ⟨k, hk⟩ := ne_none_iff_exists'.mp hsess
    obtain ⟨t, hret, hinv⟩ := h.sets hstp hk pgrp
    exact ⟨t, hret, birth, hinv⟩
  | changed p uid stat parent => exact ⟨_, Returns.const _, birth, { h with }⟩

theorem step (hstep : Step v s event t) : ∃ birth, Inv v t birth := by
  obtain ⟨hallowed, hret⟩ := hstep
  by_cases hassign : ∀ c, event ≠ .pid_assign c
  · obtain ⟨u, hu, hinv⟩ := h.call_returns hallowed hassign
    rwa [hret.unique hu]
  obtain ⟨c, hc⟩ := not_forall.mp hassign
  obtain rfl := not_not.mp hc
  obtain ⟨hprp, hpidp, hrandom, -⟩ := hallowed
  obtain ⟨n, hn⟩ := hret
  obtain ⟨⟨u, id⟩, hid, rfl⟩ := map_eq_some_iff.mp (hn n (Nat.le_refl n))
  exact ⟨birth, (h.assigns hprp hpidp hrandom hid).1⟩

end Inv

/-- The table that startup leaves is in order. -/
theorem Booted.inv (h : Booted v s) : Inv v s fun _ => pid0 := by
  have hroom := h.room
  have hslot : ∀ p ∈ s.procs, s.pid_prslot (s.p_pidp p) = 0 := by
    rw [h.procs]
    intro p hp
    rw [Finset.mem_singleton.mp hp, h.pidp, h.prslot]
  have hfree : ∀ m i, 0 < i → i + m = v.v_proc →
      Linked (slotNext s.procdir) (if i < v.v_proc then some i else none) (range' i m) := by
    intro m
    induction m with
    | zero =>
      intro i _ hi
      rw [if_neg (by omega)]
      rfl
    | succ m ih =>
      intro i hpos hi
      rw [if_pos (by omega), range'_succ]
      refine ⟨rfl, ?_⟩
      rw [slotNext, h.free i hpos (by omega)]
      exact ih (i + 1) (by omega) (by omega)
  have hproc : ∀ p, p ∈ s.procs ↔ p = proc_sched := fun p => by rw [h.procs, Finset.mem_singleton]
  have hpid : ∀ a, a ∈ s.pids ↔ a = pid0 := fun a => by rw [h.pids, Finset.mem_singleton]
  have hsess : ∀ k, k ∈ s.sesss ↔ k = session0 := fun k => by rw [h.sesss, Finset.mem_singleton]
  have hstream : ∀ t, t ∉ s.streams := fun t => by
    rw [h.streams]
    exact Finset.notMem_empty t
  refine {
    hashed := ⟨fun i => ?_, fun a ha b hb _ => ?_⟩
    grouped := fun a => ?_
    slotted := ⟨⟨range' 1 (v.v_proc - 1), ?_, fun i => ?_⟩, fun i hi hfree' => ?_, fun p hp => ?_⟩
    active := ⟨[proc_sched], ⟨h.practive, h.next⟩, fun p => by rw [mem_singleton, hproc]⟩
    count := by rw [h.nproc, h.procs, Finset.card_singleton]
    named := ⟨fun p hp => ?_, fun a ha _ => ⟨proc_sched, (hproc _).mpr rfl, ?_⟩⟩
    numbered := ⟨fun a ha => ?_, ?_, ?_, fun _ => ?_⟩
    booked := ⟨fun a ha => ?_, fun a ha => ?_⟩
    sessions := ⟨fun p hp k hk => ?_, fun k hk => ?_⟩
    ties := ?_
    sched := (hproc _).mpr rfl
    sched_pidp := h.pidp
    sched_sessp := h.sessp
    sched_sidp := h.sidp }
  · rw [h.pidhash]
    by_cases hi : i = hashpid 0
    · refine ⟨[pid0], ⟨if_pos hi, h.link⟩, fun a => ?_⟩
      rw [mem_singleton, hpid, and_iff_left_of_imp]
      rintro rfl
      rw [h.id, hi]
    · refine ⟨[], if_neg hi, fun a => iff_of_false not_mem_nil ?_⟩
      rintro ⟨ha, heq⟩
      rw [(hpid a).mp ha, h.id] at heq
      exact hi heq.symm
  · rw [(hpid a).mp ha, (hpid b).mp hb]
  · by_cases ha : a = pid0
    · subst ha
      refine ⟨[proc_sched], ⟨h.pglink, h.p_pglink⟩, fun p => ?_⟩
      rw [mem_singleton, hproc, and_iff_left_of_imp]
      rintro rfl
      exact h.pgidp
    · exact ⟨[], h.empty a ha, fun p => iff_of_false not_mem_nil fun hp => by
        rw [(hproc p).mp hp.1, h.pgidp] at hp
        exact ha (some.inj hp.2).symm⟩
  · have hlinked := hfree (v.v_proc - 1) 1 (by omega) (by omega)
    rw [if_pos (by omega)] at hlinked
    rw [h.procentfree]
    exact hlinked
  · rw [mem_range'_1]
    constructor
    · intro hi
      refine ⟨by omega, fun p hp => ?_⟩
      rw [hslot p hp]
      omega
    · rintro ⟨hi, hne⟩
      have h0 := hne proc_sched ((hproc _).mpr rfl)
      rw [hslot _ ((hproc _).mpr rfl)] at h0
      omega
  · have h0 := hfree' proc_sched ((hproc _).mpr rfl)
    rw [hslot _ ((hproc _).mpr rfl)] at h0
    exact ⟨_, h.free i (by omega) hi⟩
  · rw [hslot p hp, (hproc p).mp hp, h.slot]
    exact ⟨by omega, rfl⟩
  · rw [(hproc p).mp hp, h.pidp, h.prinactive]
  · rw [(hpid a).mp ha, h.pidp]
  · rw [(hpid a).mp ha, h.id]
    decide
  · rw [h.minpid]
    decide
  · rw [h.mpid]
    decide
  · rw [h.mpid]
    decide
  · rw [(hpid a).mp ha]
    simp only [refs, groupRef, h.procs, h.sesss, h.streams, h.pglink, h.ref, h.pidp, h.sidp,
      tally_singleton, tally_empty]
    decide
  · have hne : a ≠ pid0 := fun heq => ha ((hpid a).mpr heq)
    simp only [refs, groupRef, h.procs, h.sesss, h.streams, h.pidp, h.sidp, h.empty a hne,
      tally_singleton, tally_empty, if_neg hne.symm]
    decide
  · rw [(hproc p).mp hp, h.sessp] at hk
    exact (hsess k).mpr (some.inj hk).symm
  · rw [(hsess k).mp hk, h.s_ref, h.procs, tally_singleton, if_pos h.sessp]
    decide
  · constructor
    · intro p hp q hq _
      rw [(hproc p).mp hp, (hproc q).mp hq]
    · intro k hk l hl _
      rw [(hsess k).mp hk, (hsess l).mp hl]
    · intro p hp k hk _
      rw [(hproc p).mp hp, (hsess k).mp hk, h.pidp]
      exact ⟨h.sessp, h.pgidp⟩
    · intro p hp k hk
      rw [(hproc p).mp hp, h.sessp] at hk
      rw [← some.inj hk, h.sidp]
      exact .inl rfl
    · intro p hp a ha
      rw [(hproc p).mp hp]
      exact ⟨session0, h.sessp, .inl h.sidp⟩
    · intro p hp hnone
      rw [(hproc p).mp hp, h.sessp] at hnone
      cases hnone
    · exact fun t ht => absurd ht (hstream t)
    · intro k hk t
      rw [(hsess k).mp hk, h.vp]
      exact iff_of_false (some_ne_none t).symm fun ht => hstream t ht.1
    · exact fun t ht => absurd ht (hstream t)
    · exact fun t ht => absurd ht (hstream t)
    · exact fun t ht => absurd ht (hstream t)

/-- What the process table is for. -/
structure InOrder (v : Var) (s : State) : Prop where
  /-- `pid_assign` returns no id of a live process, of a process group with members or of a session. -/
  assigned : ∀ fuel c t id, Protocol s (.pid_assign c) → pid_assign v fuel s c = some (t, id) →
    (∀ p ∈ s.procs, s.pid_id (s.p_pidp p) ≠ id) ∧
    (∀ p ∈ s.procs, ∀ g, s.p_pgidp p = some g → s.pid_id g ≠ id) ∧
    ∀ k ∈ s.sesss, s.pid_id (s.s_sidp k) ≠ id
  /-- A pid structure is allocated as long as something refers to it, and counts what does. -/
  counted : ∀ a, (a ∈ s.pids ↔ 0 < refs s a) ∧ (a ∈ s.pids → (s.pid_ref a : Int) = refs s a)
  /-- It is on the chain of its id, once, and on no other. -/
  hashed : ∀ i, ∃ cells, Linked s.pid_link (s.pidhash i) cells ∧
    ∀ a, cells.count a = if a ∈ s.pids ∧ hashpid (s.pid_id a) = i then 1 else 0
  /-- `prfind` finds the live process with the id. -/
  found : ∀ pid, ∃ found, Returns (fun fuel => prfind fuel s pid) found ∧
    ∀ p, found = some p ↔ p ∈ s.procs ∧ s.pid_id (s.p_pidp p) = pid
  /-- Every slot is on the free list or some live process's, and not both; each process has one. -/
  slots : ∃ cells, Linked (slotNext s.procdir) s.procentfree cells ∧
    (∀ i, i < v.v_proc ↔ (i ∈ cells ∨ ∃ p ∈ s.procs, s.pid_prslot (s.p_pidp p) = i)) ∧
    (∀ i ∈ cells, ∀ p ∈ s.procs, s.pid_prslot (s.p_pidp p) ≠ i) ∧
    (∀ p ∈ s.procs, s.procdir (s.pid_prslot (s.p_pidp p)) = .proc p) ∧
    s.nproc + cells.length = v.v_proc
  /-- The number of processes is that of the slots they have. -/
  count : s.nproc = (s.procs.image fun p => s.pid_prslot (s.p_pidp p)).card

theorem Inv.inOrder (h : Inv v s birth) : InOrder v s where
  assigned fuel c t id hallowed hret := by
    obtain ⟨hprp, hpidp, hrandom, -⟩ := hallowed
    have hunused := (h.assigns hprp hpidp hrandom hret).2
    exact ⟨fun p hp => hunused _ (h.proc_pid hp), fun p hp g hg => hunused g (h.group_pid hp hg),
      fun k hk => hunused _ (h.sess_pid hk)⟩
  counted a := by
    refine ⟨⟨fun ha => ?_, h.booked.mem⟩, fun ha => (h.booked.ref a ha).1⟩
    have href := h.booked.ref a ha
    omega
  hashed i := by
    obtain ⟨cells, hcells, hmem⟩ := h.hashed.chains i
    refine ⟨cells, hcells, fun a => ?_⟩
    rw [hcells.nodup.count]
    exact if_congr (hmem a) rfl rfl
  found pid := by
    obtain ⟨found, hfound, hiff⟩ := h.hashed.lookup pid
    cases found with
    | none =>
      refine ⟨none, hfound.bind (Returns.const none), fun p => iff_of_false nofun ?_⟩
      rintro ⟨hp, hid⟩
      exact absurd ((hiff _).mpr ⟨h.proc_pid hp, hid⟩) nofun
    | some a =>
      obtain ⟨ha, hid⟩ := (hiff a).mp rfl
      by_cases hact : s.pid_prinactive a = true
      · refine ⟨none, hfound.bind ⟨0, fun fuel _ => if_pos hact⟩, fun p => iff_of_false nofun ?_⟩
        rintro ⟨hp, hpid⟩
        obtain heq := some.inj ((hiff _).mpr ⟨h.proc_pid hp, hpid⟩)
        rw [heq, h.named.active p hp] at hact
        cases hact
      · obtain ⟨p, hp, rfl⟩ := h.named.proc a ha (Bool.not_eq_true _ ▸ hact)
        have hslot := (h.slotted.used p hp).2
        refine ⟨some p, hfound.bind ⟨0, fun fuel _ => ?_⟩, fun q => ⟨fun hq => ?_, fun hq => ?_⟩⟩
        · refine (if_neg hact).trans ?_
          rw [hslot]
        · obtain rfl := some.inj hq
          exact ⟨hp, hid⟩
        · have heq := some.inj ((hiff _).mpr ⟨h.proc_pid hq.1, hq.2⟩)
          rw [h.ties.pid_inj p hp q hq.1 heq]
  slots := by
    obtain ⟨cells, hcells, hmem⟩ := h.slotted.free
    refine ⟨cells, hcells, fun i => ⟨fun hi => ?_, fun hi => ?_⟩, fun i hi => ((hmem i).mp hi).2,
      fun p hp => (h.slotted.used p hp).2, ?_⟩
    · by_cases hused : ∃ p ∈ s.procs, s.pid_prslot (s.p_pidp p) = i
      · exact Or.inr hused
      · exact Or.inl ((hmem i).mpr ⟨hi, fun p hp heq => hused ⟨p, hp, heq⟩⟩)
    · rcases hi with hi | ⟨p, hp, rfl⟩
      · exact ((hmem i).mp hi).1
      · exact (h.slotted.used p hp).1
    · -- the free slots are the ones that are no process's
      have hset : cells.toFinset =
          Finset.range v.v_proc \ s.procs.image fun p => s.pid_prslot (s.p_pidp p) := by
        ext i
        simp only [List.mem_toFinset, hmem, Finset.mem_sdiff, Finset.mem_range, Finset.mem_image,
          not_exists, not_and, ne_eq]
      have hsub : (s.procs.image fun p => s.pid_prslot (s.p_pidp p)) ⊆ Finset.range v.v_proc := by
        intro i hi
        obtain ⟨p, hp, rfl⟩ := Finset.mem_image.mp hi
        exact Finset.mem_range.mpr (h.slotted.used p hp).1
      have himage : (s.procs.image fun p => s.pid_prslot (s.p_pidp p)).card = s.procs.card :=
        Finset.card_image_of_injOn fun p hp q hq heq => h.slotted.slot_inj hp hq heq
      have hlength := List.toFinset_card_of_nodup hcells.nodup
      rw [hset, Finset.card_sdiff_of_subset hsub, Finset.card_range, himage] at hlength
      have hle := h.slotted.card_le
      have hcount := h.count
      omega
  count := by
    rw [Finset.card_image_of_injOn fun p hp q hq heq => h.slotted.slot_inj hp hq heq, h.count]

/-- After every run in which the callers keep to their protocol the process table is in order, and
every call they may make then, other than `pid_assign`, returns. -/
theorem process_table_run (hboot : Booted v s₀) (hrun : Exec (Step v) s₀ events s) :
    InOrder v s ∧ ∀ event, Protocol s event → (∀ c, event ≠ .pid_assign c) → ∃ t, Step v s event t := by
  obtain ⟨birth, hinv⟩ := hrun.keeps (fun s => ∃ birth, Inv v s birth)
    (fun _ _ _ hs hstep => hs.elim fun _ h => h.step hstep) ⟨_, hboot.inv⟩
  refine ⟨hinv.inOrder, fun event hallowed hassign => ?_⟩
  obtain ⟨t, hret, -⟩ := hinv.call_returns hallowed hassign
  exact ⟨t, hallowed, hret⟩

/-- Startup with three slots. -/
def startup : State where
  pids := {pid0}
  pid_prinactive _ := false
  pid_pgorphaned _ := true
  pid_ref _ := 3
  pid_prslot _ := 0
  pid_id _ := 0
  pid_pglink a := if a = pid0 then some proc_sched else none
  pid_link _ := none
  procs := {proc_sched}
  p_stat _ := .sonproc
  p_uid _ := 0
  p_parent _ := none
  p_pidp _ := pid0
  p_pgidp _ := some pid0
  p_pglink _ := none
  p_sessp _ := some session0
  p_next _ := none
  sesss := {session0}
  s_ref _ := 1
  s_sidp _ := pid0
  s_vp _ := none
  streams := ∅
  sd_sidp _ := none
  sd_pgidp _ := none
  nproc := 1
  pidhash i := if i = hashpid 0 then some pid0 else none
  minpid := 0
  mpid := 0
  procdir i := if i = 0 then .proc proc_sched else .next (if i + 1 < 3 then some (i + 1) else none)
  procentfree := some 1
  practive := some proc_sched

/-- Process 0 creates process 1, at the addresses 1, which makes a session and exits. -/
theorem process_table_run_startup : ∃ s, Exec (Step ⟨3, 25⟩) startup
    [.pid_assign ⟨0, 0, false, false, false, 0, some 1, some 1⟩, .newproc_session 1 0, .pgjoin 1 0,
      .sess_create 1 1, .pid_exit 1] s ∧ InOrder ⟨3, 25⟩ s ∧ s.nproc = 1 := by
  have hboot : Booted ⟨3, 25⟩ startup := by
    constructor <;> try first | rfl | decide
    · exact fun i => rfl
    · intro i hpos _
      exact if_neg (by omega)
    · intro a ha
      exact if_neg ha
  let s₁ := enter (kmem_zalloc startup 1 1) 1 1 1 (some 2) 1
  let s₂ := SESS_HOLD { s₁ with p_sessp := Function.update s₁.p_sessp 1 (some 0) } 0
  let s₃ := pgjoin s₂ 1 0
  have h₁ : Step ⟨3, 25⟩ startup (.pid_assign ⟨0, 0, false, false, false, 0, some 1, some 1⟩) s₁ := by
    refine ⟨?_, 2, fun fuel hfuel => ?_⟩
    · simp [Protocol, startup, pid0, proc_sched, MAXPID]
    · obtain ⟨n, rfl⟩ := Nat.exists_eq_add_of_le' hfuel
      rfl
  have h₂ : Step ⟨3, 25⟩ s₁ (.newproc_session 1 0) s₂ :=
    ⟨⟨by decide, by decide, by decide, by decide⟩, 0, fun fuel _ => rfl⟩
  have h₃ : Step ⟨3, 25⟩ s₂ (.pgjoin 1 0) s₃ :=
    ⟨⟨by decide, by decide, by decide, .inr ⟨0, by decide⟩⟩, 0, fun fuel _ => rfl⟩
  let s₄ := (call ⟨3, 25⟩ 3 s₃ (.sess_create 1 1)).get rfl
  have h₄ : Step ⟨3, 25⟩ s₃ (.sess_create 1 1) s₄ := by
    refine ⟨⟨by decide, by decide, by decide, .inl (by decide), by decide⟩, 3, fun fuel hfuel => ?_⟩
    obtain ⟨n, rfl⟩ := Nat.exists_eq_add_of_le' hfuel
    rfl
  let s₅ := (call ⟨3, 25⟩ 3 s₄ (.pid_exit 1)).get rfl
  have h₅ : Step ⟨3, 25⟩ s₄ (.pid_exit 1) s₅ := by
    refine ⟨⟨by decide, by decide, by decide, by decide⟩, 3, fun fuel hfuel => ?_⟩
    obtain ⟨n, rfl⟩ := Nat.exists_eq_add_of_le' hfuel
    rfl
  have hrun := ((((Exec.single h₁).snoc h₂).snoc h₃).snoc h₄).snoc h₅
  exact ⟨s₅, hrun, (process_table_run hboot hrun).1, rfl⟩

end Svr42.Proc
