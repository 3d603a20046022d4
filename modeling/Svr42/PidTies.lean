import Svr42.PidBooks

/-! Which process, process group and terminal belongs to which session, and that a pid structure has
few references because of it. -/

namespace Svr42.Proc
open Finset Function Option

variable {procs procs' sesss sesss' streams : Finset Nat} {p_pidp s_sidp birth : Nat → Nat}
  {p_pgidp p_sessp s_vp sd_sidp sd_pgidp : Nat → Option Nat} {s : State} {a g p q k t : Nat}

/-- `birth a` is the session the process of the pid structure `a` was created in; the process and the
members of its group are in that session or in its own. -/
structure Ties (procs : Finset Nat) (p_pidp : Nat → Nat) (p_pgidp p_sessp : Nat → Option Nat)
    (sesss : Finset Nat) (s_sidp : Nat → Nat) (s_vp : Nat → Option Nat) (streams : Finset Nat)
    (sd_sidp sd_pgidp : Nat → Option Nat) (birth : Nat → Nat) : Prop where
  pid_inj : ∀ p ∈ procs, ∀ q ∈ procs, p_pidp p = p_pidp q → p = q
  sid_inj : ∀ k ∈ sesss, ∀ l ∈ sesss, s_sidp k = s_sidp l → k = l
  leader : ∀ p ∈ procs, ∀ k ∈ sesss, s_sidp k = p_pidp p →
    p_sessp p = some k ∧ p_pgidp p = some (p_pidp p)
  born : ∀ p ∈ procs, ∀ k, p_sessp p = some k → s_sidp k = birth (p_pidp p) ∨ s_sidp k = p_pidp p
  member : ∀ p ∈ procs, ∀ a, p_pgidp p = some a →
    ∃ k, p_sessp p = some k ∧ (s_sidp k = birth a ∨ s_sidp k = a)
  fresh : ∀ p ∈ procs, p_sessp p = none → (∀ q ∈ procs, p_pgidp q ≠ some (p_pidp p)) ∧
    (∀ k ∈ sesss, s_sidp k ≠ p_pidp p) ∧
    ∀ t ∈ streams, sd_sidp t ≠ some (p_pidp p) ∧ sd_pgidp t ≠ some (p_pidp p)
  tty_inj : ∀ t ∈ streams, ∀ u ∈ streams, ∀ a, sd_sidp t = some a → sd_sidp u = some a → t = u
  tty : ∀ k ∈ sesss, ∀ t, s_vp k = some t ↔ t ∈ streams ∧ sd_sidp t = some (s_sidp k)
  held : ∀ t ∈ streams, ∀ p ∈ procs, sd_sidp t = some (p_pidp p) →
    ∃ k, p_sessp p = some k ∧ s_sidp k = p_pidp p
  front : ∀ t ∈ streams, ∀ a, sd_pgidp t = some a → sd_sidp t = some (birth a) ∨ sd_sidp t = some a
  both : ∀ t ∈ streams, sd_sidp t = none ↔ sd_pgidp t = none

/-- `Ties` of the fields of a state. -/
abbrev State.Tied (s : State) (birth : Nat → Nat) : Prop :=
  Ties s.procs s.p_pidp s.p_pgidp s.p_sessp s.sesss s.s_sidp s.s_vp s.streams s.sd_sidp s.sd_pgidp birth

namespace Ties

theorem of_update_none {f : Nat → Option Nat} {u : Nat} (h : update f t none u = some a) :
    u ≠ t ∧ f u = some a := by
  by_cases hut : u = t
  · rw [hut, update_self] at h
    cases h
  · rw [update_of_ne hut] at h
    exact ⟨hut, h⟩

/-- A process has one pid structure, and that one process, process group and session; the streams
that refer to it are those of its own session and of the one it was created in. -/
theorem refs_le (h : s.Tied birth) (a : Nat) : refs s a ≤ 6 := by
  have hproc : tally s.procs s.p_pidp a ≤ 1 := tally_le_one fun p hp q hq hpa hqa =>
    h.pid_inj p hp q hq (hpa.trans hqa.symm)
  have hsess : tally s.sesss s.s_sidp a ≤ 1 := tally_le_one fun k hk l hl hka hla =>
    h.sid_inj k hk l hl (hka.trans hla.symm)
  have hsid : ∀ b, tally s.streams s.sd_sidp (some b) ≤ 1 := fun b =>
    tally_le_one fun t ht u hu htb hub => h.tty_inj t ht u hu b htb hub
  have hpg : tally s.streams s.sd_pgidp (some a) ≤
      tally s.streams s.sd_sidp (some (birth a)) + tally s.streams s.sd_sidp (some a) :=
    tally_le_add fun t ht hta => h.front t ht a hta
  have hgroup : groupRef s.pid_pglink a ≤ 1 := by
    unfold groupRef
    split_ifs <;> omega
  have ha := hsid a
  have hbirth := hsid (birth a)
  unfold refs
  omega

variable (h : Ties procs p_pidp p_pgidp p_sessp sesss s_sidp s_vp streams sd_sidp sd_pgidp birth)
include h

theorem mono (hprocs : procs' ⊆ procs) (hsesss : sesss' ⊆ sesss) :
    Ties procs' p_pidp p_pgidp p_sessp sesss' s_sidp s_vp streams sd_sidp sd_pgidp birth where
  pid_inj p hp q hq := h.pid_inj p (hprocs hp) q (hprocs hq)
  sid_inj k hk l hl := h.sid_inj k (hsesss hk) l (hsesss hl)
  leader p hp k hk := h.leader p (hprocs hp) k (hsesss hk)
  born p hp := h.born p (hprocs hp)
  member p hp := h.member p (hprocs hp)
  fresh p hp hnone := have hp' := h.fresh p (hprocs hp) hnone
    ⟨fun q hq => hp'.1 q (hprocs hq), fun k hk => hp'.2.1 k (hsesss hk), hp'.2.2⟩
  tty_inj := h.tty_inj
  tty k hk := h.tty k (hsesss hk)
  held t ht p hp := h.held t ht p (hprocs hp)
  front := h.front
  both := h.both

/-- A new process, with a pid structure that nothing refers to. -/
theorem enter (hp : p ∉ procs) (hproc : ∀ q ∈ procs, p_pidp q ≠ a)
    (hgroup : ∀ q ∈ procs, p_pgidp q ≠ some a) (hsess : ∀ k ∈ sesss, s_sidp k ≠ a)
    (htty : ∀ t ∈ streams, sd_sidp t ≠ some a ∧ sd_pgidp t ≠ some a) :
    Ties (insert p procs) (update p_pidp p a) (update p_pgidp p none)
      (update p_sessp p none) sesss s_sidp s_vp streams sd_sidp sd_pgidp birth := by
  have hne : ∀ q ∈ procs, q ≠ p := fun q hq => ne_of_mem_of_not_mem hq hp
  refine { h with pid_inj := ?_, leader := ?_, born := ?_, member := ?_, fresh := ?_, held := ?_ }
  · intro q hq r hr heq
    rcases mem_insert.mp hq with hqp | hq'
    · rcases mem_insert.mp hr with hrp | hr'
      · rw [hqp, hrp]
      · rw [hqp, update_self, update_of_ne (hne r hr')] at heq
        exact absurd heq.symm (hproc r hr')
    · rcases mem_insert.mp hr with hrp | hr'
      · rw [hrp, update_self, update_of_ne (hne q hq')] at heq
        exact absurd heq (hproc q hq')
      · rw [update_of_ne (hne q hq'), update_of_ne (hne r hr')] at heq
        exact h.pid_inj q hq' r hr' heq
  · refine (forall_mem_insert _ _ _).mpr ⟨fun k hk heq => ?_, fun q hq => ?_⟩
    · rw [update_self] at heq
      exact absurd heq (hsess k hk)
    · rw [update_of_ne (hne q hq), update_of_ne (hne q hq), update_of_ne (hne q hq)]
      exact h.leader q hq
  · refine (forall_mem_insert _ _ _).mpr ⟨fun k hk => ?_, fun q hq => ?_⟩
    · rw [update_self] at hk
      cases hk
    · rw [update_of_ne (hne q hq), update_of_ne (hne q hq)]
      exact h.born q hq
  · refine (forall_mem_insert _ _ _).mpr ⟨fun b hb => ?_, fun q hq => ?_⟩
    · rw [update_self] at hb
      cases hb
    · rw [update_of_ne (hne q hq), update_of_ne (hne q hq)]
      exact h.member q hq
  · refine (forall_mem_insert _ _ _).mpr ⟨fun _ => ?_, fun q hq hnone => ?_⟩
    · rw [update_self]
      refine ⟨(forall_mem_insert _ _ _).mpr ⟨?_, fun q hq => ?_⟩, hsess, htty⟩
      · rw [update_self]
        exact nofun
      · rw [update_of_ne (hne q hq)]
        exact hgroup q hq
    · rw [update_of_ne (hne q hq)] at hnone ⊢
      have hq' := h.fresh q hq hnone
      refine ⟨(forall_mem_insert _ _ _).mpr ⟨?_, fun r hr => ?_⟩, hq'.2⟩
      · rw [update_self]
        exact nofun
      · rw [update_of_ne (hne r hr)]
        exact hq'.1 r hr
  · intro t ht
    refine (forall_mem_insert _ _ _).mpr ⟨fun hta => ?_, fun q hq => ?_⟩
    · rw [update_self] at hta
      exact absurd hta (htty t ht).1
    · rw [update_of_ne (hne q hq), update_of_ne (hne q hq)]
      exact h.held t ht q hq

/-- A new process gets the session of the one that created it. -/
theorem adopt (hp : p ∈ procs) (hnone : p_sessp p = none) (k : Nat) :
    Ties procs p_pidp p_pgidp (update p_sessp p (some k)) sesss s_sidp s_vp streams sd_sidp
      sd_pgidp (update birth (p_pidp p) (s_sidp k)) := by
  obtain ⟨hgroup, hsess, htty⟩ := h.fresh p hp hnone
  have hother : ∀ q ∈ procs, q ≠ p → p_pidp q ≠ p_pidp p := fun q hq hqp heq =>
    hqp (h.pid_inj q hq p hp heq)
  have hmember : ∀ q ∈ procs, ∀ a, p_pgidp q = some a → q ≠ p ∧ a ≠ p_pidp p := by
    intro q hq a ha
    constructor
    · rintro rfl
      obtain ⟨l, hl, -⟩ := h.member q hq a ha
      rw [hnone] at hl
      cases hl
    · rintro rfl
      exact hgroup q hq ha
  refine { h with leader := ?_, born := ?_, member := ?_, fresh := ?_, held := ?_, front := ?_ }
  · intro q hq l hl heq
    have hqp : q ≠ p := by
      rintro rfl
      exact hsess l hl heq
    rw [update_of_ne hqp]
    exact h.leader q hq l hl heq
  · intro q hq l hl
    by_cases hqp : q = p
    · subst hqp
      rw [update_self] at hl ⊢
      exact .inl (congrArg s_sidp (some.inj hl).symm)
    · rw [update_of_ne hqp] at hl
      rw [update_of_ne (hother q hq hqp)]
      exact h.born q hq l hl
  · intro q hq a ha
    obtain ⟨hqp, hap⟩ := hmember q hq a ha
    rw [update_of_ne hqp, update_of_ne hap]
    exact h.member q hq a ha
  · intro q hq hq'
    have hqp : q ≠ p := by
      rintro rfl
      rw [update_self] at hq'
      cases hq'
    rw [update_of_ne hqp] at hq'
    exact h.fresh q hq hq'
  · intro t ht q hq hta
    have hqp : q ≠ p := by
      rintro rfl
      exact (htty t ht).1 hta
    rw [update_of_ne hqp]
    exact h.held t ht q hq hta
  · intro t ht a ha
    have hap : a ≠ p_pidp p := by
      rintro rfl
      exact (htty t ht).2 ha
    rw [update_of_ne hap]
    exact h.front t ht a ha

/-- A process joins its own group or one of its session. -/
theorem join (hp : p ∈ procs) (hnone : p_pgidp p = none) (hk : p_sessp p = some k)
    (hg : g = p_pidp p ∨ ∃ q ∈ procs, p_pgidp q = some g ∧ p_sessp q = p_sessp p) :
    Ties procs p_pidp (update p_pgidp p (some g)) p_sessp sesss s_sidp s_vp streams sd_sidp
      sd_pgidp birth := by
  refine { h with leader := ?_, member := ?_, fresh := ?_ }
  · intro q hq l hl heq
    have hq' := h.leader q hq l hl heq
    have hqp : q ≠ p := by
      rintro rfl
      rw [hnone] at hq'
      cases hq'.2
    rw [update_of_ne hqp]
    exact hq'
  · intro q hq a ha
    by_cases hqp : q = p
    · subst hqp
      rw [update_self] at ha
      obtain rfl := some.inj ha
      refine ⟨k, hk, ?_⟩
      rcases hg with rfl | ⟨r, hr, hrg, hrk⟩
      · exact h.born q hq k hk
      obtain ⟨l, hl, hborn⟩ := h.member r hr g hrg
      rw [hrk, hk] at hl
      obtain rfl := some.inj hl
      exact hborn
    · rw [update_of_ne hqp] at ha
      exact h.member q hq a ha
  · intro q hq hnone'
    have hq' := h.fresh q hq hnone'
    refine ⟨fun r hr => ?_, hq'.2⟩
    by_cases hrp : r = p
    · subst hrp
      rw [update_self]
      intro heq
      have hgq : g = p_pidp q := some.inj heq
      rcases hg with hg | ⟨u, hu, hug, -⟩
      · rw [h.pid_inj q hq r hr (hgq.symm.trans hg), hk] at hnone'
        cases hnone'
      · exact hq'.1 u hu (hug.trans heq)
    · rw [update_of_ne hrp]
      exact hq'.1 r hr

/-- A process that leads no session leaves its group. -/
theorem leave (hlead : ∀ k ∈ sesss, s_sidp k ≠ p_pidp p) :
    Ties procs p_pidp (update p_pgidp p none) p_sessp sesss s_sidp s_vp streams sd_sidp
      sd_pgidp birth := by
  refine { h with leader := ?_, member := ?_, fresh := ?_ }
  · intro q hq l hl heq
    have hqp : q ≠ p := by
      rintro rfl
      exact hlead l hl heq
    rw [update_of_ne hqp]
    exact h.leader q hq l hl heq
  · exact fun q hq a ha => h.member q hq a (of_update_none ha).2
  · intro q hq hnone
    have hq' := h.fresh q hq hnone
    exact ⟨fun r hr heq => hq'.1 r hr (of_update_none heq).2, hq'.2⟩

/-- A process is gone, and perhaps its session. -/
theorem exit (hsesss : sesss' ⊆ sesss) :
    Ties (procs.erase p) p_pidp (update p_pgidp p none) p_sessp sesss' s_sidp s_vp streams
      sd_sidp sd_pgidp birth := by
  have hm := h.mono (erase_subset p procs) hsesss
  have hne : ∀ q ∈ procs.erase p, update p_pgidp p none q = p_pgidp q := fun q hq =>
    update_of_ne (ne_of_mem_erase hq) _ _
  refine { hm with leader := ?_, member := ?_, fresh := ?_ }
  · intro q hq
    rw [hne q hq]
    exact hm.leader q hq
  · intro q hq
    rw [hne q hq]
    exact hm.member q hq
  · intro q hq hnone
    have hq' := hm.fresh q hq hnone
    refine ⟨fun r hr => ?_, hq'.2⟩
    rw [hne r hr]
    exact hq'.1 r hr

/-- A process that leads no session becomes the leader of the new session `k` and of its group. -/
theorem create (hp : p ∈ procs) (hk : k ∉ sesss) (hlead : ∀ l ∈ sesss, s_sidp l ≠ p_pidp p)
    (hlive : ∀ q ∈ procs, q ≠ p → ∀ l, p_sessp q = some l → l ∈ sesss)
    (htty : ∀ t ∈ streams, sd_sidp t ≠ some (p_pidp p)) :
    Ties procs p_pidp (update p_pgidp p (some (p_pidp p)))
      (update p_sessp p (some k)) (insert k sesss) (update s_sidp k (p_pidp p))
      (update s_vp k none) streams sd_sidp sd_pgidp birth := by
  have hne : ∀ l ∈ sesss, l ≠ k := fun l hl => ne_of_mem_of_not_mem hl hk
  have hother : ∀ q ∈ procs, q ≠ p → p_pidp p ≠ p_pidp q := fun q hq hqp heq =>
    hqp (h.pid_inj q hq p hp heq.symm)
  refine { h with
    sid_inj := ?_, leader := ?_, born := ?_, member := ?_, fresh := ?_, tty := ?_, held := ?_ }
  · intro l hl m hm heq
    rcases mem_insert.mp hl with hlk | hl'
    · rcases mem_insert.mp hm with hmk | hm'
      · rw [hlk, hmk]
      · rw [hlk, update_self, update_of_ne (hne m hm')] at heq
        exact absurd heq.symm (hlead m hm')
    · rcases mem_insert.mp hm with hmk | hm'
      · rw [hmk, update_self, update_of_ne (hne l hl')] at heq
        exact absurd heq (hlead l hl')
      · rw [update_of_ne (hne l hl'), update_of_ne (hne m hm')] at heq
        exact h.sid_inj l hl' m hm' heq
  · intro q hq
    refine (forall_mem_insert _ _ _).mpr ⟨fun heq => ?_, fun l hl heq => ?_⟩
    · rw [update_self] at heq
      have hqp : q = p := (h.pid_inj p hp q hq heq).symm
      subst hqp
      rw [update_self, update_self]
      exact ⟨rfl, rfl⟩
    · rw [update_of_ne (hne l hl)] at heq
      have hqp : q ≠ p := by
        rintro rfl
        exact hlead l hl heq
      rw [update_of_ne hqp, update_of_ne hqp]
      exact h.leader q hq l hl heq
  · intro q hq l hl
    by_cases hqp : q = p
    · subst hqp
      rw [update_self] at hl
      obtain rfl := some.inj hl
      rw [update_self]
      exact .inr rfl
    · rw [update_of_ne hqp] at hl
      rw [update_of_ne (hne l (hlive q hq hqp l hl))]
      exact h.born q hq l hl
  · intro q hq a ha
    by_cases hqp : q = p
    · subst hqp
      rw [update_self] at ha
      obtain rfl := some.inj ha
      refine ⟨k, update_self _ _ _, .inr ?_⟩
      rw [update_self]
    · rw [update_of_ne hqp] at ha
      obtain ⟨l, hl, hborn⟩ := h.member q hq a ha
      refine ⟨l, ?_, ?_⟩
      · rw [update_of_ne hqp]
        exact hl
      · rw [update_of_ne (hne l (hlive q hq hqp l hl))]
        exact hborn
  · intro q hq hnone
    have hqp : q ≠ p := by
      rintro rfl
      rw [update_self] at hnone
      cases hnone
    rw [update_of_ne hqp] at hnone
    have hq' := h.fresh q hq hnone
    refine ⟨fun r hr => ?_, (forall_mem_insert _ _ _).mpr ⟨?_, fun l hl => ?_⟩, hq'.2.2⟩
    · by_cases hrp : r = p
      · subst hrp
        rw [update_self]
        exact fun heq => hother q hq hqp (some.inj heq)
      · rw [update_of_ne hrp]
        exact hq'.1 r hr
    · rw [update_self]
      exact hother q hq hqp
    · rw [update_of_ne (hne l hl)]
      exact hq'.2.1 l hl
  · refine (forall_mem_insert _ _ _).mpr ⟨fun t => ?_, fun l hl t => ?_⟩
    · rw [update_self, update_self]
      exact ⟨nofun, fun ht => absurd ht.2 (htty t ht.1)⟩
    · rw [update_of_ne (hne l hl), update_of_ne (hne l hl)]
      exact h.tty l hl t
  · intro t ht q hq hta
    have hqp : q ≠ p := by
      rintro rfl
      exact htty t ht hta
    obtain ⟨l, hl, hlq⟩ := h.held t ht q hq hta
    refine ⟨l, ?_, ?_⟩
    · rw [update_of_ne hqp]
      exact hl
    · rw [update_of_ne (hne l (hlive q hq hqp l hl))]
      exact hlq

/-- A stream is opened. -/
theorem stropen (ht : t ∉ streams) :
    Ties procs p_pidp p_pgidp p_sessp sesss s_sidp s_vp (insert t streams)
      (update sd_sidp t none) (update sd_pgidp t none) birth := by
  have hne : ∀ u ∈ streams, u ≠ t := fun u hu => ne_of_mem_of_not_mem hu ht
  have hold : ∀ {f : Nat → Option Nat} {u a}, u ∈ insert t streams → update f t none u = some a →
      u ∈ streams ∧ f u = some a := by
    intro f u a hu hua
    obtain ⟨hut, hua⟩ := of_update_none hua
    exact ⟨mem_of_mem_insert_of_ne hu hut, hua⟩
  refine { h with fresh := ?_, tty_inj := ?_, tty := ?_, held := ?_, front := ?_, both := ?_ }
  · intro p hp hnone
    have hp' := h.fresh p hp hnone
    refine ⟨hp'.1, hp'.2.1, fun u hu => ⟨fun heq => ?_, fun heq => ?_⟩⟩
    · exact (hp'.2.2 u (hold hu heq).1).1 (hold hu heq).2
    · exact (hp'.2.2 u (hold hu heq).1).2 (hold hu heq).2
  · intro u hu w hw a hua hwa
    exact h.tty_inj u (hold hu hua).1 w (hold hw hwa).1 a (hold hu hua).2 (hold hw hwa).2
  · intro k hk u
    rw [h.tty k hk]
    refine ⟨fun hu => ⟨mem_insert_of_mem hu.1, ?_⟩, fun hu => hold hu.1 hu.2⟩
    rw [update_of_ne (hne u hu.1)]
    exact hu.2
  · intro u hu p hp heq
    exact h.held u (hold hu heq).1 p hp (hold hu heq).2
  · intro u hu a hua
    rw [update_of_ne (hne u (hold hu hua).1)]
    exact h.front u (hold hu hua).1 a (hold hu hua).2
  · refine (forall_mem_insert _ _ _).mpr ⟨?_, fun u hu => ?_⟩
    · rw [update_self, update_self]
    · rw [update_of_ne (hne u hu), update_of_ne (hne u hu)]
      exact h.both u hu

theorem strclose (ht : sd_sidp t = none) :
    Ties procs p_pidp p_pgidp p_sessp sesss s_sidp s_vp (streams.erase t) sd_sidp sd_pgidp birth := by
  have hsub := erase_subset t streams
  refine { h with fresh := ?_, tty_inj := ?_, tty := ?_, held := ?_, front := ?_, both := ?_ }
  · intro p hp hnone
    have hp' := h.fresh p hp hnone
    exact ⟨hp'.1, hp'.2.1, fun u hu => hp'.2.2 u (hsub hu)⟩
  · exact fun u hu w hw => h.tty_inj u (hsub hu) w (hsub hw)
  · intro k hk u
    rw [h.tty k hk]
    refine ⟨fun hu => ⟨mem_erase.mpr ⟨?_, hu.1⟩, hu.2⟩, fun hu => ⟨hsub hu.1, hu.2⟩⟩
    rintro rfl
    rw [ht] at hu
    cases hu.2
  · exact fun u hu => h.held u (hsub hu)
  · exact fun u hu => h.front u (hsub hu)
  · exact fun u hu => h.both u (hsub hu)

/-- A stream becomes the terminal of a session that has none. -/
theorem alloctty (hk : k ∈ sesss) (ht : t ∈ streams) (hnone : sd_sidp t = none) (hvp : s_vp k = none) :
    Ties procs p_pidp p_pgidp p_sessp sesss s_sidp (update s_vp k (some t)) streams
      (update sd_sidp t (some (s_sidp k))) (update sd_pgidp t (some (s_sidp k)))
      birth := by
  -- no other stream is a terminal of that session
  have hfree : ∀ u ∈ streams, sd_sidp u ≠ some (s_sidp k) := by
    intro u hu heq
    rw [(h.tty k hk u).mpr ⟨hu, heq⟩] at hvp
    cases hvp
  have hsid : ∀ u ∈ streams, ∀ a, update sd_sidp t (some (s_sidp k)) u = some a →
      u = t ∧ a = s_sidp k ∨ u ≠ t ∧ sd_sidp u = some a := by
    intro u _ a hua
    by_cases hut : u = t
    · subst hut
      rw [update_self] at hua
      exact .inl ⟨rfl, (some.inj hua).symm⟩
    · rw [update_of_ne hut] at hua
      exact .inr ⟨hut, hua⟩
  refine { h with fresh := ?_, tty_inj := ?_, tty := ?_, held := ?_, front := ?_, both := ?_ }
  · intro p hp hp'
    obtain ⟨hgroup, hsess, htty⟩ := h.fresh p hp hp'
    refine ⟨hgroup, hsess, fun u hu => ?_⟩
    by_cases hut : u = t
    · subst hut
      rw [update_self, update_self]
      exact ⟨fun heq => hsess k hk (some.inj heq), fun heq => hsess k hk (some.inj heq)⟩
    · rw [update_of_ne hut, update_of_ne hut]
      exact htty u hu
  · intro u hu w hw a hua hwa
    rcases hsid u hu a hua with ⟨rfl, rfl⟩ | ⟨hut, hua'⟩
    · rcases hsid w hw _ hwa with ⟨rfl, -⟩ | ⟨-, hwa'⟩
      · rfl
      · exact absurd hwa' (hfree w hw)
    · rcases hsid w hw a hwa with ⟨rfl, rfl⟩ | ⟨-, hwa'⟩
      · exact absurd hua' (hfree u hu)
      · exact h.tty_inj u hu w hw a hua' hwa'
  · intro l hl u
    by_cases hlk : l = k
    · subst hlk
      rw [update_self]
      constructor
      · intro heq
        obtain rfl := some.inj heq
        exact ⟨ht, update_self _ _ _⟩
      · rintro ⟨hu, hua⟩
        rcases hsid u hu _ hua with ⟨rfl, -⟩ | ⟨-, hua'⟩
        · rfl
        · exact absurd hua' (hfree u hu)
    · rw [update_of_ne hlk, h.tty l hl]
      refine and_congr_right fun hu => ?_
      by_cases hut : u = t
      · subst hut
        rw [update_self, hnone]
        exact ⟨nofun, fun heq => absurd (h.sid_inj l hl k hk (some.inj heq).symm) hlk⟩
      · rw [update_of_ne hut]
  · intro u hu p hp hua
    rcases hsid u hu _ hua with ⟨-, heq⟩ | ⟨-, hua'⟩
    · exact ⟨k, (h.leader p hp k hk heq.symm).1, heq.symm⟩
    · exact h.held u hu p hp hua'
  · intro u hu a hua
    by_cases hut : u = t
    · subst hut
      rw [update_self] at hua ⊢
      exact .inr hua
    · rw [update_of_ne hut] at hua ⊢
      exact h.front u hu a hua
  · intro u hu
    by_cases hut : u = t
    · subst hut
      simp
    · rw [update_of_ne hut, update_of_ne hut]
      exact h.both u hu

/-- The terminal of a session is freed. -/
theorem freectty (hk : k ∈ sesss) (hvp : s_vp k = some t) :
    Ties procs p_pidp p_pgidp p_sessp sesss s_sidp (update s_vp k none) streams
      (update sd_sidp t none) (update sd_pgidp t none) birth := by
  have htk := (h.tty k hk t).mp hvp
  refine { h with fresh := ?_, tty_inj := ?_, tty := ?_, held := ?_, front := ?_, both := ?_ }
  · intro p hp hnone
    have hp' := h.fresh p hp hnone
    refine ⟨hp'.1, hp'.2.1, fun u hu => ⟨fun heq => ?_, fun heq => ?_⟩⟩
    · exact (hp'.2.2 u hu).1 (of_update_none heq).2
    · exact (hp'.2.2 u hu).2 (of_update_none heq).2
  · exact fun u hu w hw a hua hwa => h.tty_inj u hu w hw a (of_update_none hua).2 (of_update_none hwa).2
  · intro l hl u
    by_cases hlk : l = k
    · subst hlk
      rw [update_self]
      refine ⟨nofun, fun hu => ?_⟩
      exact absurd (h.tty_inj u hu.1 t htk.1 _ (of_update_none hu.2).2 htk.2) (of_update_none hu.2).1
    rw [update_of_ne hlk, h.tty l hl]
    refine and_congr_right fun _ => ⟨fun hu => ?_, fun hu => (of_update_none hu).2⟩
    have hut : u ≠ t := by
      rintro rfl
      rw [htk.2] at hu
      exact hlk (h.sid_inj l hl k hk (some.inj hu).symm)
    rw [update_of_ne hut]
    exact hu
  · exact fun u hu p hp hua => h.held u hu p hp (of_update_none hua).2
  · intro u hu a hua
    rw [update_of_ne (of_update_none hua).1]
    exact h.front u hu a (of_update_none hua).2
  · intro u hu
    by_cases hut : u = t
    · subst hut
      rw [update_self, update_self]
    · rw [update_of_ne hut, update_of_ne hut]
      exact h.both u hu

/-- A group of the session becomes the foreground process group of its terminal. -/
theorem foreground (ht : t ∈ streams) (hq : q ∈ procs) (hg : p_pgidp q = some g)
    (hk : p_sessp q = some k) (hsid : sd_sidp t = some (s_sidp k)) :
    Ties procs p_pidp p_pgidp p_sessp sesss s_sidp s_vp streams sd_sidp
      (update sd_pgidp t (some g)) birth := by
  refine { h with fresh := ?_, front := ?_, both := ?_ }
  · intro p hp hnone
    have hp' := h.fresh p hp hnone
    refine ⟨hp'.1, hp'.2.1, fun u hu => ⟨(hp'.2.2 u hu).1, ?_⟩⟩
    by_cases hut : u = t
    · subst hut
      rw [update_self, ← hg]
      exact hp'.1 q hq
    · rw [update_of_ne hut]
      exact (hp'.2.2 u hu).2
  · intro u hu a hua
    by_cases hut : u = t
    · subst hut
      rw [update_self] at hua
      obtain rfl := some.inj hua
      obtain ⟨l, hl, hborn⟩ := h.member q hq g hg
      rw [hk] at hl
      obtain rfl := some.inj hl
      rw [hsid]
      exact hborn.imp (congrArg some) (congrArg some)
    · rw [update_of_ne hut] at hua
      exact h.front u hu a hua
  · intro u hu
    by_cases hut : u = t
    · subst hut
      rw [update_self, hsid]
      exact ⟨nofun, nofun⟩
    · rw [update_of_ne hut]
      exact h.both u hu

end Ties

end Svr42.Proc
