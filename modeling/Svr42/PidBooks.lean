import Svr42.PidChains
import Svr42.Tally

/-! The reference counts: what refers to a pid structure and to a session, and what holding and
releasing do to the counts. -/

namespace Svr42.Proc
open Finset Function Option

variable {s : State} {pids procs sesss streams : Finset Nat} {pid_ref p_pidp s_sidp birth : Nat → Nat}
  {p_pgidp p_sessp pid_pglink pid_pglink' s_vp sd_sidp sd_pgidp : Nat → Option Nat} {s_ref : Nat → Int}
  {expected expected' : Nat → Int} {a g p k : Nat}

/-! Pid structures. -/

def groupRef (pid_pglink : Nat → Option Nat) (a : Nat) : Int :=
  if pid_pglink a = none then 0 else 1

/-- The references to a pid structure: those of its process, its process group, its session, and the
streams it is the session or the foreground process group of. -/
def refs (s : State) (a : Nat) : Int :=
  tally s.procs s.p_pidp a + groupRef s.pid_pglink a + tally s.sesss s.s_sidp a +
    tally s.streams s.sd_sidp (some a) + tally s.streams s.sd_pgidp (some a)

/-- Every count is the number expected, and what is allocated is what has a reference. -/
structure Booked (pids : Finset Nat) (pid_ref : Nat → Nat) (expected : Nat → Int) : Prop where
  ref : ∀ a ∈ pids, (pid_ref a : Int) = expected a ∧ 0 < pid_ref a
  gone : ∀ a, a ∉ pids → expected a = 0

namespace Booked

section

variable (h : Booked pids pid_ref expected)
include h

theorem mem (ha : 0 < expected a) : a ∈ pids := by
  by_contra hnot
  rw [h.gone a hnot] at ha
  exact lt_irrefl 0 ha

theorem congr (heq : ∀ a, expected' a = expected a) : Booked pids pid_ref expected' := by
  rwa [show expected' = expected from funext heq]

theorem hold (ha : a ∈ pids) (hmax : pid_ref a < 63) :
    Booked pids (update pid_ref a ((pid_ref a + 1) % 64)) (update expected a (expected a + 1)) := by
  have hmod : (pid_ref a + 1) % 64 = pid_ref a + 1 := Nat.mod_eq_of_lt (by omega)
  rw [hmod]
  constructor
  · intro b hb
    by_cases hba : b = a
    · subst hba
      have href := h.ref b hb
      rw [update_self, update_self]
      omega
    · rw [update_of_ne hba, update_of_ne hba]
      exact h.ref b hb
  · intro b hb
    rw [update_of_ne (ne_of_mem_of_not_mem ha hb).symm]
    exact h.gone b hb

end

end Booked

/-- Releasing a reference lowers the count, and frees the pid structure when it was the last one. -/
theorem pid_rele_returns (hhash : Hashed s.pids s.pid_id s.pid_link s.pidhash)
    (hbooks : Booked s.pids s.pid_ref expected) (ha : a ∈ s.pids) (hpid0 : a = pid0 → 1 < expected a) :
    ∃ pids pid_ref pid_link pidhash, Returns (fun fuel => PID_RELE fuel s a)
        { s with pids := pids, pid_ref := pid_ref, pid_link := pid_link, pidhash := pidhash } ∧
      Hashed pids s.pid_id pid_link pidhash ∧ pids ⊆ s.pids ∧
      Booked pids pid_ref (update expected a (expected a - 1)) := by
  have href := hbooks.ref a ha
  by_cases hlast : 1 < s.pid_ref a
  · refine ⟨s.pids, _, s.pid_link, s.pidhash, ⟨0, fun fuel _ => if_pos hlast⟩, hhash,
      Finset.Subset.refl _, ?_, ?_⟩
    · intro b hb
      by_cases hba : b = a
      · subst hba
        rw [update_self, update_self]
        omega
      · rw [update_of_ne hba, update_of_ne hba]
        exact hbooks.ref b hb
    · intro b hb
      rw [update_of_ne (ne_of_mem_of_not_mem ha hb).symm]
      exact hbooks.gone b hb
  · have ha0 : a ≠ pid0 := fun heq => by
      omega
    obtain ⟨pid_link, pidhash, hhash', hret⟩ := hhash.rele ha ha0
    refine ⟨s.pids.erase a, s.pid_ref, pid_link, pidhash, hret.of_eq fun fuel => if_neg hlast, hhash',
      erase_subset a s.pids, ?_, ?_⟩
    · intro b hb
      rw [update_of_ne (ne_of_mem_erase hb)]
      exact hbooks.ref b (mem_of_mem_erase hb)
    · intro b hb
      by_cases hba : b = a
      · subst hba
        rw [update_self]
        omega
      · rw [update_of_ne hba]
        exact hbooks.gone b fun hmem => hb (mem_erase.mpr ⟨hba, hmem⟩)

/-! Process groups. -/

theorem groupRef_update (p : Nat) : groupRef (update pid_pglink g (some p)) a =
    if a = g then 1 else groupRef pid_pglink a := by
  unfold groupRef
  by_cases ha : a = g
  · subst ha
    simp
  · rw [update_of_ne ha, if_neg ha]

theorem pgjoin_eq (s : State) (p g : Nat) : ∃ pid_pgorphaned, pgjoin s p g = { s with
      p_pglink := update s.p_pglink p (s.pid_pglink g)
      pid_pglink := update s.pid_pglink g (some p)
      p_pgidp := update s.p_pgidp p (some g)
      pid_ref := if s.pid_pglink g = none then update s.pid_ref g ((s.pid_ref g + 1) % 64)
        else s.pid_ref
      pid_pgorphaned := pid_pgorphaned } := by
  simp only [pgjoin, update_self, PID_HOLD]
  by_cases hnone : s.pid_pglink g = none
  · rw [if_pos hnone, if_pos hnone]
    exact ⟨_, rfl⟩
  rw [if_neg hnone, if_neg hnone]
  split_ifs
  · exact ⟨_, rfl⟩
  · exact ⟨_, rfl⟩

theorem Booked.join (h : Booked pids pid_ref expected) (hg : g ∈ pids) (hmax : pid_ref g < 63)
    (pid_pglink : Nat → Option Nat) (p : Nat) :
    Booked pids (if pid_pglink g = none then update pid_ref g ((pid_ref g + 1) % 64) else pid_ref)
      (fun a => expected a - groupRef pid_pglink a + groupRef (update pid_pglink g (some p)) a) := by
  split_ifs with hnone
  · refine (h.hold hg hmax).congr fun a => ?_
    rw [groupRef_update]
    by_cases ha : a = g
    · subst ha
      simp [groupRef, hnone]
    · rw [if_neg ha, update_of_ne ha]
      omega
  · refine h.congr fun a => ?_
    rw [groupRef_update]
    by_cases ha : a = g
    · subst ha
      simp [groupRef, hnone]
    · rw [if_neg ha]
      omega

/-- Leaving a group, which releases its pid structure when no member is left. -/
theorem pgexit_returns (hhash : Hashed s.pids s.pid_id s.pid_link s.pidhash)
    (hgroup : Grouped s.procs s.p_pgidp s.p_pglink s.pid_pglink)
    (hbooks : Booked s.pids s.pid_ref expected) (hp : p ∈ s.procs) (hg : s.p_pgidp p = some g)
    (hmem : g ∈ s.pids) (hpid0 : g = pid0 → 1 < expected g) :
    ∃ pids pid_ref pid_link pidhash p_pglink pid_pglink pid_pgorphaned,
      Returns (fun fuel => pgexit fuel s p) { s with
          pids := pids, pid_ref := pid_ref, pid_link := pid_link, pidhash := pidhash
          p_pglink := p_pglink, pid_pglink := pid_pglink, pid_pgorphaned := pid_pgorphaned
          p_pgidp := update s.p_pgidp p none } ∧
      Hashed pids s.pid_id pid_link pidhash ∧ pids ⊆ s.pids ∧
      Grouped s.procs (update s.p_pgidp p none) p_pglink pid_pglink ∧
      Booked pids pid_ref (fun a => expected a - groupRef s.pid_pglink a + groupRef pid_pglink a) := by
  obtain ⟨prev, hfind, hleave⟩ := hgroup.leave hp hg
  have hwas : groupRef s.pid_pglink g = 1 := if_neg fun hnone =>
    hgroup.eq_none_iff.mp hnone p hp hg
  -- the state once `p` is off the list
  let t : State := { s with
    pid_pglink := update s.pid_pglink g (relinkStart prev (s.pid_pglink g) (s.p_pglink p))
    p_pglink := update (relinkNext prev s.p_pglink (s.p_pglink p)) p none
    p_pgidp := update s.p_pgidp p none }
  have hothers : ∀ a, a ≠ g → groupRef t.pid_pglink a = groupRef s.pid_pglink a := fun a ha => by
    have hsame : t.pid_pglink a = s.pid_pglink a := update_of_ne ha _ _
    rw [groupRef, groupRef, hsame]
  have hrest : ∀ {u}, Returns (fun fuel =>
      if t.pid_pglink g = none then PID_RELE fuel t g
      else if t.pid_pgorphaned g then some t
      else (seek t.p_pglink (fun p => t.p_stat p ≠ .szomb ∧ pglinked t p) fuel (t.pid_pglink g)).map
        fun linked => { t with
          pid_pgorphaned := update t.pid_pgorphaned g (decide (linked = none)) }) u →
      Returns (fun fuel => pgexit fuel s p) u := fun hu =>
    Returns.bindConst hg (hfind.bind hu)
  by_cases hempty : t.pid_pglink g = none
  · obtain ⟨pids, pid_ref, pid_link, pidhash, hret, hhash', hsub, hbooks'⟩ :=
      pid_rele_returns (s := t) hhash hbooks hmem hpid0
    refine ⟨pids, pid_ref, pid_link, pidhash, t.p_pglink, t.pid_pglink, t.pid_pgorphaned,
      hrest (hret.of_eq fun fuel => if_pos hempty), hhash', hsub, hleave, hbooks'.congr fun a => ?_⟩
    by_cases ha : a = g
    · subst ha
      rw [update_self, hwas, groupRef, if_pos hempty]
      omega
    · rw [update_of_ne ha, hothers a ha]
      omega
  have hbooks' : Booked s.pids s.pid_ref
      (fun a => expected a - groupRef s.pid_pglink a + groupRef t.pid_pglink a) := by
    refine hbooks.congr fun a => ?_
    by_cases ha : a = g
    · subst ha
      rw [hwas, groupRef, if_neg hempty]
      omega
    · rw [hothers a ha]
      omega
  by_cases horphan : t.pid_pgorphaned g = true
  · refine ⟨s.pids, s.pid_ref, s.pid_link, s.pidhash, t.p_pglink, t.pid_pglink, t.pid_pgorphaned,
      hrest ⟨0, fun fuel _ => ?_⟩, hhash, Finset.Subset.refl _, hleave, hbooks'⟩
    exact (if_neg hempty).trans (if_pos horphan)
  obtain ⟨members, hmembers, -⟩ := hleave g
  have hseek : Returns (fun fuel => seek t.p_pglink
      (fun p => t.p_stat p ≠ .szomb ∧ pglinked t p) fuel (t.pid_pglink g)) _ := hmembers.seek_eq
  let orphan (linked : Option Nat) : State := { t with
    pid_pgorphaned := update t.pid_pgorphaned g (decide (linked = none)) }
  refine ⟨s.pids, s.pid_ref, s.pid_link, s.pidhash, t.p_pglink, t.pid_pglink, _,
    hrest ((hseek.map orphan).of_eq fun fuel => ?_), hhash, Finset.Subset.refl _, hleave, hbooks'⟩
  exact (if_neg hempty).trans (if_neg horphan)

/-! Sessions. -/

/-- A session is allocated while some process is in it, and counts them. -/
structure Sessions (procs : Finset Nat) (p_sessp : Nat → Option Nat) (sesss : Finset Nat)
    (s_ref : Nat → Int) : Prop where
  live : ∀ p ∈ procs, ∀ k, p_sessp p = some k → k ∈ sesss
  ref : ∀ k ∈ sesss, s_ref k = tally procs p_sessp (some k) ∧ 0 < s_ref k

theorem short_eq {n : Int} (h0 : 0 ≤ n) (h1 : n < 32768) : short n = n := by
  rw [short, Int.bmod_eq_of_le] <;> omega

namespace Sessions

theorem enter (h : Sessions procs p_sessp sesss s_ref) (hp : p ∉ procs) :
    Sessions (insert p procs) (update p_sessp p none) sesss s_ref := by
  constructor
  · refine (forall_mem_insert _ _ _).mpr ⟨fun k hk => ?_, fun q hq k hk => ?_⟩
    · rw [update_self] at hk
      cases hk
    · rw [update_of_ne (ne_of_mem_of_not_mem hq hp)] at hk
      exact h.live q hq k hk
  · intro k hk
    rw [tally_insert hp, if_neg nofun, Nat.add_zero]
    exact h.ref k hk

/-- It is counted in the session it is given. -/
theorem adopt (h : Sessions procs p_sessp sesss s_ref) (hcard : procs.card < 32768) (hp : p ∈ procs)
    (hnone : p_sessp p = none) (hk : k ∈ sesss) :
    Sessions procs (update p_sessp p (some k)) sesss (update s_ref k (short (s_ref k + 1))) := by
  have htally : ∀ l, tally procs (update p_sessp p (some k)) (some l) =
      tally procs p_sessp (some l) + if k = l then 1 else 0 := by
    intro l
    have hupdate := tally_update (f := p_sessp) (b := some l) hp (some k)
    rw [hnone, if_neg nofun] at hupdate
    simpa using hupdate
  have hself := htally k
  rw [if_pos rfl] at hself
  have hle := tally_le_card (S := procs) (f := update p_sessp p (some k)) (b := some k)
  have href := h.ref k hk
  have hshort : short (s_ref k + 1) = s_ref k + 1 := short_eq (by omega) (by omega)
  constructor
  · intro q hq l hl
    by_cases hqp : q = p
    · subst hqp
      rw [update_self] at hl
      exact some.inj hl ▸ hk
    · rw [update_of_ne hqp] at hl
      exact h.live q hq l hl
  · intro l hl
    by_cases hlk : l = k
    · subst hlk
      rw [update_self, hshort, hself]
      omega
    · rw [update_of_ne hlk, htally, if_neg (Ne.symm hlk), Nat.add_zero]
      exact h.ref l hl

/-- A process that has left its session is counted in the one it makes. -/
theorem create (h : Sessions (procs.erase p) p_sessp sesss s_ref) (hp : p ∈ procs) (hk : k ∉ sesss) :
    Sessions procs (update p_sessp p (some k)) (insert k sesss) (update s_ref k 1) := by
  have htally : ∀ l, tally procs (update p_sessp p (some k)) (some l) =
      tally (procs.erase p) p_sessp (some l) + if some k = some l then 1 else 0 := by
    intro l
    have hins := tally_insert (f := p_sessp) (b := some l) (notMem_erase p procs) (some k)
    rwa [insert_erase hp] at hins
  constructor
  · intro q hq l hl
    by_cases hqp : q = p
    · subst hqp
      rw [update_self] at hl
      exact some.inj hl ▸ mem_insert_self k sesss
    · rw [update_of_ne hqp] at hl
      exact mem_insert_of_mem (h.live q (mem_erase.mpr ⟨hqp, hq⟩) l hl)
  · refine (forall_mem_insert _ _ _).mpr ⟨?_, fun l hl => ?_⟩
    · have hzero : tally (procs.erase p) p_sessp (some k) = 0 :=
        tally_eq_zero.mpr fun q hq hqk => hk (h.live q hq k hqk)
      rw [update_self, htally, if_pos rfl, hzero]
      exact ⟨rfl, Int.one_pos⟩
    · have hlk : l ≠ k := ne_of_mem_of_not_mem hl hk
      rw [update_of_ne hlk, htally, if_neg fun heq => hlk (some.inj heq).symm, Nat.add_zero]
      exact h.ref l hl

end Sessions

/-- The last process of a session takes the session with it, and its reference to the leader's pid
structure. -/
theorem sess_rele_returns (hhash : Hashed s.pids s.pid_id s.pid_link s.pidhash)
    (hbooks : Booked s.pids s.pid_ref expected) (hsess : Sessions s.procs s.p_sessp s.sesss s.s_ref)
    (hcard : s.procs.card < 32768) (hp : p ∈ s.procs) (hk : s.p_sessp p = some k)
    (hmem : s.s_sidp k ∈ s.pids) (hlast : s.s_ref k = 1 → k ≠ session0 ∧ s.s_sidp k ≠ pid0) :
    ∃ pids pid_ref pid_link pidhash sesss s_ref, Returns (fun fuel => SESS_RELE fuel s k) { s with
          pids := pids, pid_ref := pid_ref, pid_link := pid_link, pidhash := pidhash
          sesss := sesss, s_ref := s_ref } ∧
      Hashed pids s.pid_id pid_link pidhash ∧ pids ⊆ s.pids ∧ sesss ⊆ s.sesss ∧
      Sessions (s.procs.erase p) s.p_sessp sesss s_ref ∧ (k ∈ sesss → s.s_ref k ≠ 1) ∧
      Booked pids pid_ref (fun a => expected a - tally s.sesss s.s_sidp a + tally sesss s.s_sidp a) := by
  have hkmem := hsess.live p hp k hk
  have href := hsess.ref k hkmem
  have hle := tally_le_card (S := s.procs) (f := s.p_sessp) (b := some k)
  have hshort : short (s.s_ref k - 1) = s.s_ref k - 1 := short_eq (by omega) (by omega)
  let s_ref := update s.s_ref k (short (s.s_ref k - 1))
  have hself : s_ref k = s.s_ref k - 1 := (update_self _ _ _).trans hshort
  have hdrop := tally_erase (f := s.p_sessp) (b := some k) hp
  rw [if_pos hk] at hdrop
  have hother : ∀ l, l ≠ k → s_ref l = s.s_ref l ∧
      tally (s.procs.erase p) s.p_sessp (some l) = tally s.procs s.p_sessp (some l) := by
    intro l hl
    have hsame := tally_erase (f := s.p_sessp) (b := some l) hp
    rw [hk, if_neg fun heq => hl (some.inj heq).symm] at hsame
    exact ⟨update_of_ne hl _ _, hsame⟩
  have hnext : ∀ l ∈ s.sesss, l ≠ k →
      s_ref l = tally (s.procs.erase p) s.p_sessp (some l) ∧ 0 < s_ref l := by
    intro l hl hlk
    rw [(hother l hlk).1, (hother l hlk).2]
    exact hsess.ref l hl
  by_cases hone : s.s_ref k = 1
  · obtain ⟨pids, pid_ref, pid_link, pidhash, hret, hhash', hsub, hbooks'⟩ :=
      pid_rele_returns (s := { s with s_ref := s_ref }) hhash hbooks hmem
        fun heq => absurd heq (hlast hone).2
    have hnot : ¬ 0 < s_ref k := by
      rw [hself]
      omega
    refine ⟨pids, pid_ref, pid_link, pidhash, s.sesss.erase k, s_ref,
      (hret.map fun u : State => { u with sesss := u.sesss.erase k }).of_eq fun fuel => ?_, hhash',
      hsub, erase_subset _ _, ⟨fun q hq l hl => ?_, fun l hl => ?_⟩, fun hin => ?_,
      hbooks'.congr fun a => ?_⟩
    · exact (if_neg hnot).trans (if_neg (hlast hone).1)
    · refine mem_erase.mpr ⟨?_, hsess.live q (mem_of_mem_erase hq) l hl⟩
      rintro rfl
      have hpos : 0 < tally (s.procs.erase p) s.p_sessp (some l) := tally_pos.mpr ⟨q, hq, hl⟩
      omega
    · exact hnext l (mem_of_mem_erase hl) (ne_of_mem_erase hl)
    · exact absurd hin (notMem_erase k _)
    · have herase := tally_erase (f := s.s_sidp) (b := a) hkmem
      by_cases ha : a = s.s_sidp k
      · subst ha
        rw [if_pos rfl] at herase
        rw [update_self]
        omega
      · rw [if_neg (Ne.symm ha)] at herase
        rw [update_of_ne ha]
        omega
  · have hpos : 0 < s_ref k := by
      rw [hself]
      omega
    refine ⟨s.pids, s.pid_ref, s.pid_link, s.pidhash, s.sesss, s_ref,
      ⟨0, fun fuel _ => if_pos hpos⟩, hhash, Finset.Subset.refl _, Finset.Subset.refl _,
      ⟨fun q hq => hsess.live q (mem_of_mem_erase hq), fun l hl => ?_⟩, fun _ => hone,
      hbooks.congr fun a => by omega⟩
    by_cases hl' : l = k
    · subst hl'
      omega
    · exact hnext l hl hl'

end Svr42.Proc
