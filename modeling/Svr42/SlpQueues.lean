import Svr42.DispRuns
import Svr42.SlpModel

/-! The sleep queues: what each of them holds, and what taking a process off, putting one on and
making one run keep of it. -/

namespace Svr42.Slp
open Function List

open Disp

variable {Ptr : Type} {s t : Sys Ptr} {n i : Nat} {sl queues : Nat → List Ptr} {pp rp : Ptr}
  {front back : List Ptr}

/-- The dispatcher is consistent; what is on its queues can run and waits for nothing, and what
waits is asleep or stopped. -/
structure Ready (n : Nat) (s : Sys Ptr) (queues : Nat → List Ptr) : Prop where
  consistent : Consistent n s.disp queues
  pri : ∀ pp, (s.disp.proc pp).pPri < n
  awake : ∀ i, ∀ pp ∈ queues i, s.pWchan pp = 0 ∧ s.stat pp = .srun
  asleep : ∀ pp, s.pWchan pp ≠ 0 → s.stat pp = .ssleep ∨ s.stat pp = .sstop

/-- Every sleep queue is a list, of the processes whose channel hashes to it. -/
structure Held (s : Sys Ptr) (sl : Nat → List Ptr) : Prop where
  linked : ∀ i, Linked s.disp.link (s.sleepq i).sqFirst (sl i)
  waits : ∀ i pp, pp ∈ sl i ↔ s.pWchan pp ≠ 0 ∧ sqhash (s.pWchan pp) = i

/-- And its tail pointer names the last one. -/
structure Queued (s : Sys Ptr) (sl : Nat → List Ptr) : Prop extends Held s sl where
  last : ∀ i, (s.sleepq i).sqLast = (sl i).getLast?

theorem Ready.off (h : Ready n s queues) (hpp : s.pWchan pp ≠ 0) (i : Nat) : pp ∉ queues i :=
  fun hmem => hpp (h.awake i pp hmem).1

theorem Ready.off_of_stat (h : Ready n s queues) (hpp : s.stat pp ≠ .srun) (i : Nat) : pp ∉ queues i :=
  fun hmem => hpp (h.awake i pp hmem).2

theorem Held.apart (h : Held s sl) {j : Nat} (hi : pp ∈ sl i) (hj : pp ∈ sl j) : j = i :=
  (((h.waits j pp).mp hj).2).symm.trans ((h.waits i pp).mp hi).2

theorem Held.congr (h : Held s sl) (hlink : ∀ pp, s.pWchan pp ≠ 0 → t.disp.link pp = s.disp.link pp)
    (hfirst : ∀ i, (t.sleepq i).sqFirst = (s.sleepq i).sqFirst) (hwchan : t.pWchan = s.pWchan) :
    Held t sl where
  linked i := by
    rw [hfirst]
    exact (h.linked i).congr fun pp hpp => hlink pp ((h.waits i pp).mp hpp).1
  waits i pp := by
    rw [hwchan]
    exact h.waits i pp

theorem Held.mem_split (h : Held s sl) (hi : sl i = front ++ pp :: back) :
    s.pWchan pp ≠ 0 ∧ sqhash (s.pWchan pp) = i :=
  (h.waits i pp).mp (hi ▸ mem_append_right _ (.head _))

theorem Held.plink_eq (h : Held s sl) (hi : sl i = front ++ back) :
    plink s i front.getLast? = back.head? := by
  have hlinked := h.linked i
  rw [hi] at hlinked
  rcases eq_nil_or_concat front with rfl | ⟨front, q, rfl⟩
  · exact hlinked.start_eq
  · rw [concat_eq_append, getLast?_append, getLast?_singleton]
    rw [concat_eq_append, append_assoc] at hlinked
    exact hlinked.drop.start_eq

/-- The queues once `pp` is at the back of the one of its priority. -/
def enqueued (s : Sys Ptr) (queues : Nat → List Ptr) (pp : Ptr) : Nat → List Ptr :=
  Function.update queues (s.disp.proc pp).pPri (queues (s.disp.proc pp).pPri ++ [pp])

theorem enqueued_self (queues : Nat → List Ptr) : ∃ i, pp ∈ enqueued s queues pp i :=
  ⟨_, by rw [enqueued, update_self]; exact mem_append_right _ (.head _)⟩

theorem enqueued_subset (queues : Nat → List Ptr) (i : Nat) : queues i ⊆ enqueued s queues pp i := by
  intro rp hrp
  by_cases hi : i = (s.disp.proc pp).pPri
  · rw [enqueued, hi, update_self]
    exact mem_append_left _ (hi ▸ hrp)
  · rwa [enqueued, update_of_ne hi]

theorem mem_enqueued (h : rp ∈ enqueued s queues pp i) : rp ∈ queues i ∨ rp = pp := by
  by_cases hi : i = (s.disp.proc pp).pPri
  · rw [enqueued, hi, update_self] at h
    rcases mem_append.mp h with hold | hnew
    · exact .inl (hi ▸ hold)
    · exact .inr (mem_singleton.mp hnew)
  · rw [enqueued, update_of_ne hi] at h
    exact .inl h

/-- What `ready` leaves as it was. -/
structure Kept (s t : Sys Ptr) : Prop where
  wchan : t.pWchan = s.pWchan
  flag : t.flag = s.flag
  sleepq : t.sleepq = s.sleepq
  runout : t.runout = s.runout

theorem Kept.trans {u : Sys Ptr} (h : Kept s t) (h' : Kept t u) : Kept s u :=
  ⟨h'.wchan.trans h.wchan, h'.flag.trans h.flag, h'.sleepq.trans h.sleepq, h'.runout.trans h.runout⟩

section Updates

variable [DecidableEq Ptr]

theorem link_setProc (p : Proc Ptr) : (setProc s pp p).disp.link = update s.disp.link pp p.pLink := by
  funext rp
  by_cases hrp : rp = pp
  · simp [Dispatcher.link, setProc, hrp]
  · simp [Dispatcher.link, setProc, hrp]

variable {p : Proc Ptr}

theorem link_setProc_same (hp : p.pLink = s.disp.link pp) : (setProc s pp p).disp.link = s.disp.link := by
  rw [link_setProc, hp, update_eq_self]

theorem stat_setProc (p : Proc Ptr) : (setProc s pp p).stat = update s.stat pp p.pStat := by
  funext rp
  by_cases hrp : rp = pp
  · simp [Sys.stat, setProc, hrp]
  · simp [Sys.stat, setProc, hrp]

theorem flag_setProc (p : Proc Ptr) : (setProc s pp p).flag = update s.flag pp p.pFlag := by
  funext rp
  by_cases hrp : rp = pp
  · simp [Sys.flag, setProc, hrp]
  · simp [Sys.flag, setProc, hrp]

theorem link_setStat (pStat : Stat) : (setStat s pp pStat).disp.link = s.disp.link :=
  link_setProc_same rfl

theorem pri_setStat (pStat : Stat) :
    ((setStat s pp pStat).disp.proc rp).pPri = (s.disp.proc rp).pPri := by
  by_cases hrp : rp = pp
  · simp [setStat, setProc, hrp]
  · simp [setStat, setProc, hrp]

theorem Ready.setProc (h : Ready n s queues) (hpp : ∀ i, pp ∉ queues i) (hpri : p.pPri < n)
    (hstat : s.pWchan pp ≠ 0 → p.pStat = .ssleep ∨ p.pStat = .sstop) :
    Ready n (setProc s pp p) queues where
  consistent := h.consistent.changeOther hpp
  pri rp := by
    by_cases hrp : rp = pp
    · simpa [Slp.setProc, hrp] using hpri
    · simpa [Slp.setProc, hrp] using h.pri rp
  awake i rp hrp := by
    have hne : rp ≠ pp := ne_of_mem_of_not_mem hrp (hpp i)
    rw [stat_setProc, update_of_ne hne]
    exact h.awake i rp hrp
  asleep rp hrp := by
    rw [stat_setProc]
    by_cases heq : rp = pp
    · rw [heq, update_self]
      exact hstat (heq ▸ hrp)
    · rw [update_of_ne heq]
      exact h.asleep rp hrp

theorem Ready.awaken (h : Ready n s queues) : Ready n (setWchan s pp 0) queues where
  consistent := h.consistent
  pri := h.pri
  awake i rp hrp := by
    refine ⟨?_, (h.awake i rp hrp).2⟩
    by_cases heq : rp = pp
    · simp [setWchan, heq]
    · simpa [setWchan, heq] using (h.awake i rp hrp).1
  asleep rp hrp := by
    have hne : rp ≠ pp := fun heq => hrp (by simp [setWchan, heq])
    have hwait : s.pWchan rp ≠ 0 := by simpa [setWchan, hne] using hrp
    exact h.asleep rp hwait

theorem Held.setProc (h : Held s sl) (hp : p.pLink = s.disp.link pp) : Held (setProc s pp p) sl :=
  h.congr (fun _ _ => by rw [link_setProc_same hp]) (fun _ => rfl) rfl

theorem Queued.setProc (h : Queued s sl) (hp : p.pLink = s.disp.link pp) : Queued (setProc s pp p) sl :=
  ⟨h.toHeld.setProc hp, h.last⟩

/-! ### Off a sleep queue -/

theorem wchan_takeOff (i : Nat) (rp : Option Ptr) (pp : Ptr) :
    (takeOff s i rp pp).pWchan = update s.pWchan pp 0 := by
  cases rp with
  | none => rfl
  | some rp => rfl

theorem stat_takeOff (i : Nat) (rp : Option Ptr) (pp : Ptr) : (takeOff s i rp pp).stat = s.stat := by
  cases rp with
  | none => rfl
  | some rp =>
    have hstat : (takeOff s i (some rp) pp).stat =
        update s.stat rp (s.disp.proc rp).pStat := stat_setProc _
    rw [hstat]
    exact update_eq_self rp s.stat

theorem flag_takeOff (i : Nat) (rp : Option Ptr) (pp : Ptr) : (takeOff s i rp pp).flag = s.flag := by
  cases rp with
  | none => rfl
  | some rp =>
    have hflag : (takeOff s i (some rp) pp).flag =
        update s.flag rp (s.disp.proc rp).pFlag := flag_setProc _
    rw [hflag]
    exact update_eq_self rp s.flag

theorem sleepq_takeOff {j : Nat} (hj : j ≠ i) (rp : Option Ptr) (pp : Ptr) :
    (takeOff s i rp pp).sleepq j = s.sleepq j := by
  cases rp with
  | none => exact update_of_ne hj _ _
  | some rp => rfl

theorem runout_takeOff (i : Nat) (rp : Option Ptr) (pp : Ptr) :
    (takeOff s i rp pp).runout = s.runout := by
  cases rp with
  | none => rfl
  | some rp => rfl

theorem Held.waits_takeOff (h : Held s sl) (hi : sl i = front ++ pp :: back) (j : Nat) (rp : Ptr) :
    rp ∈ update sl i (front ++ back) j ↔
      update s.pWchan pp 0 rp ≠ 0 ∧ sqhash (update s.pWchan pp 0 rp) = j := by
  have hnodup := (h.linked i).nodup
  rw [hi] at hnodup
  have hgone : pp ∉ front ++ back := (nodup_middle.mp hnodup).notMem
  by_cases hrp : rp = pp
  · subst hrp
    rw [update_self]
    refine iff_of_false ?_ fun hno => hno.1 rfl
    by_cases hj : j = i
    · rw [hj, update_self]
      exact hgone
    · rw [update_of_ne hj]
      intro hmem
      exact hj (h.apart (hi ▸ mem_append_right _ (.head _)) hmem)
  · rw [update_of_ne hrp]
    by_cases hj : j = i
    · rw [hj, update_self, ← h.waits i rp, hi]
      simp [hrp]
    · rw [update_of_ne hj]
      exact h.waits j rp

theorem Held.takeOff (h : Held s sl) (hi : sl i = front ++ pp :: back) :
    Held (takeOff s i front.getLast? pp) (update sl i (front ++ back)) where
  waits j rp := by
    rw [wchan_takeOff]
    exact h.waits_takeOff hi j rp
  linked j := by
    have hlinked := h.linked i
    rw [hi] at hlinked
    rcases eq_nil_or_concat front with rfl | ⟨front, q, rfl⟩
    · -- the head of the queue changes
      change Linked s.disp.link ((update s.sleepq i _) j).sqFirst _
      by_cases hj : j = i
      · rw [hj, update_self, update_self]
        exact hlinked.2
      · rw [update_of_ne hj, update_of_ne hj]
        exact h.linked j
    · rw [concat_eq_append] at hi ⊢
      rw [concat_eq_append, append_assoc] at hlinked
      rw [getLast?_append, getLast?_singleton]
      change Linked (Slp.setProc s q { s.disp.proc q with pLink := s.disp.link pp }).disp.link
        (s.sleepq j).sqFirst _
      rw [link_setProc]
      by_cases hj : j = i
      · rw [hj, update_self, append_assoc]
        exact hlinked.unlink
      · rw [update_of_ne hj]
        have hq : q ∈ sl i := by rw [hi]; simp
        exact (h.linked j).update_of_notMem (fun hmem => hj (h.apart hq hmem)) _

theorem Ready.takeOff (h : Ready n s queues) (hs : Held s sl) (hi : sl i = front ++ pp :: back) :
    Ready n (takeOff s i front.getLast? pp) queues := by
  have hawake : Ready n (setWchan s pp 0) queues := h.awaken
  rcases eq_nil_or_concat front with rfl | ⟨front, q, rfl⟩
  · exact ⟨hawake.consistent, hawake.pri, hawake.awake, hawake.asleep⟩
  rw [concat_eq_append] at hi ⊢
  rw [getLast?_append, getLast?_singleton]
  have hq : q ∈ sl i := by rw [hi]; simp
  exact hawake.setProc (h.off ((hs.waits i q).mp hq).1) (h.pri q) (hawake.asleep q)

/-! ### To the dispatcher queue -/

variable {d : Dispatcher Ptr}

theorem pStat_setLink {link : Option Ptr} :
    ((Disp.setLink d pp link).proc rp).pStat = (d.proc rp).pStat := by
  by_cases hrp : rp = pp
  · simp [Disp.setLink, hrp]
  · simp [Disp.setLink, hrp]

theorem proc_setbackdq (d : Dispatcher Ptr) (pp : Ptr) :
    (setbackdq d pp).proc = (linkBack d pp (d.proc pp).pPri).proc := by
  unfold setbackdq
  split
  · exact dqSruninc_same.proc
  · rfl

theorem fields_linkBack {pri : Nat} : ((linkBack d pp pri).proc rp).pStat = (d.proc rp).pStat ∧
      ((linkBack d pp pri).proc rp).pPri = (d.proc rp).pPri ∧
      ((linkBack d pp pri).proc rp).pFlag = (d.proc rp).pFlag := by
  unfold linkBack
  split
  · exact ⟨pStat_setLink, pPri_setLink, pFlag_setLink⟩
  · exact ⟨pStat_setLink.trans pStat_setLink, pPri_setLink.trans pPri_setLink,
      pFlag_setLink.trans pFlag_setLink⟩

theorem link_linkBack {pri : Nat} (hpp : rp ≠ pp) (hlast : (d.dispq pri).dqLast ≠ some rp) :
    (linkBack d pp pri).link rp = d.link rp := by
  unfold linkBack
  split
  · change (Disp.setLink d pp none).link rp = d.link rp
    rw [link_setLink, update_of_ne hpp]
  · rename_i last hsome
    have hne : rp ≠ last := fun heq => hlast (heq ▸ hsome)
    change (Disp.setLink (Disp.setLink d pp none) last (some pp)).link rp = d.link rp
    rw [link_setLink, update_of_ne hne, link_setLink, update_of_ne hpp]

theorem kept_ready (s : Sys Ptr) (pp : Ptr) : Kept s (ready s pp) := by
  refine ⟨rfl, ?_, rfl, rfl⟩
  funext rp
  change ((setbackdq (setStat s pp .srun).disp pp).proc rp).pFlag = s.flag rp
  rw [proc_setbackdq, fields_linkBack.2.2]
  change (setStat s pp .srun).flag rp = s.flag rp
  rw [setStat, flag_setProc]
  exact congrFun (update_eq_self pp s.flag) rp

theorem stat_ready (s : Sys Ptr) (pp : Ptr) : (ready s pp).stat = update s.stat pp .srun := by
  funext rp
  change ((setbackdq (setStat s pp .srun).disp pp).proc rp).pStat = _
  rw [proc_setbackdq, fields_linkBack.1]
  change (setStat s pp .srun).stat rp = _
  rw [setStat, stat_setProc]

theorem pri_ready (s : Sys Ptr) (pp rp : Ptr) :
    ((ready s pp).disp.proc rp).pPri = (s.disp.proc rp).pPri := by
  change ((setbackdq (setStat s pp .srun).disp pp).proc rp).pPri = _
  rw [proc_setbackdq, fields_linkBack.2.1, pri_setStat]

/-- A process that waits for nothing is put on its dispatcher queue. -/
theorem Ready.ready (h : Ready n s queues) (hpp : ∀ i, pp ∉ queues i) (hw : s.pWchan pp = 0) :
    Ready n (ready s pp) (enqueued s queues pp) where
  consistent := by
    have hset : Ready n (setStat s pp .srun) queues := h.setProc hpp (h.pri pp) fun hno => absurd hw hno
    have hlists := linkBack_ok hset.consistent.lists hpp (hset.pri pp) rfl
    have hpri : enqueued s queues pp = enqueued (setStat s pp .srun) queues pp := by
      rw [enqueued, enqueued, pri_setStat]
    rw [hpri]
    exact hset.consistent.enqueue (hset.pri pp) hlists (perm_append_singleton _ _)
      linkBack_same flag_linkBack
  pri rp := by
    rw [pri_ready]
    exact h.pri rp
  awake i rp hrp := by
    rw [(kept_ready s pp).wchan, stat_ready]
    rcases mem_enqueued hrp with hold | rfl
    · rw [update_of_ne (ne_of_mem_of_not_mem hold (hpp i))]
      exact h.awake i rp hold
    · exact ⟨hw, update_self _ _ _⟩
  asleep rp hrp := by
    have hne : rp ≠ pp := fun heq => hrp (heq ▸ hw)
    rw [stat_ready, update_of_ne hne]
    exact h.asleep rp hrp

theorem Held.ready (hs : Held s sl) (h : Ready n s queues) (hw : s.pWchan pp = 0) :
    Held (ready s pp) sl := by
  refine hs.congr (fun rp hrp => ?_) (fun _ => rfl) rfl
  have hne : rp ≠ pp := fun heq => hrp (heq ▸ hw)
  have hlast : ((setStat s pp .srun).disp.dispq (s.disp.proc pp).pPri).dqLast ≠ some rp := by
    intro heq
    have htail : (queues (s.disp.proc pp).pPri).getLast? = some rp :=
      (h.consistent.lists.last _).symm.trans heq
    exact hrp (h.awake _ rp (mem_of_getLast? htail)).1
  change ((setbackdq (setStat s pp .srun).disp pp).proc rp).pLink = s.disp.link rp
  rw [proc_setbackdq, pri_setStat]
  calc (linkBack (setStat s pp .srun).disp pp (s.disp.proc pp).pPri).link rp
      = (setStat s pp .srun).disp.link rp := link_linkBack hne hlast
    _ = s.disp.link rp := by rw [link_setStat]

end Updates

end Svr42.Slp
