import Svr42.PgrpFlags

/-! A process that goes from one group to another, with `setpgid` or into a new session. -/

namespace Svr42.Pgrp
open Function Option

variable {Ptr : Type} {s t v : Sys Ptr} {p q m : Ptr} {G H g : Pid} {sess : Nat}

/-- The process is between two groups. -/
structure Away [DecidableEq Ptr] (s v : Sys Ptr) (p : Ptr) (G : Pid) (sess : Nat) : Prop where
  other : ∀ m, m ≠ p → v.proc m = s.proc m
  self : v.proc p = { s.proc p with pPgidp := none, pSessp := sess }
  pglink : ∀ g, (v.group g).pglink =
    if g = G then (s.group G).pglink.erase p else (s.group g).pglink

/-- The process is in the group `H`. -/
structure Moved (s t : Sys Ptr) (p : Ptr) (H : Pid) (sess : Nat) : Prop where
  other : ∀ m, m ≠ p → t.proc m = s.proc m
  self : t.proc p = { s.proc p with pPgidp := some H, pSessp := sess }
  mem : ∀ m g, m ∈ (t.group g).pglink ↔ (m = p ∧ g = H) ∨ (m ≠ p ∧ m ∈ (s.group g).pglink)
  nodup : ∀ g, (t.group g).pglink.Nodup

/-- Whether `p` would anchor the group `H`. -/
def linkedIn (s : Sys Ptr) (p : Ptr) (H : Pid) (sess : Nat) : Bool :=
  match (s.proc p).pParent with
  | none => false
  | some q => (s.proc q).pPgidp ≠ some H ∧ (s.proc q).pSessp = sess

section

variable (h : Moved s t p H sess)
include h

theorem Moved.sameBut {u : Sys Ptr} (hu : SameBut t u) : Moved s u p H sess where
  other m hm := by rw [hu.proc]; exact h.other m hm
  self := by rw [hu.proc]; exact h.self
  mem m g := by rw [hu.pglink]; exact h.mem m g
  nodup g := by rw [hu.pglink]; exact h.nodup g

theorem Moved.fields (m : Ptr) :
    (t.proc m).pStat = (s.proc m).pStat ∧ (t.proc m).pParent = (s.proc m).pParent ∧
      (t.proc m).pChild = (s.proc m).pChild ∧ (t.proc m).pPidp = (s.proc m).pPidp := by
  by_cases hm : m = p
  · subst hm
    rw [h.self]
    exact ⟨rfl, rfl, rfl, rfl⟩
  · rw [h.other m hm]
    exact ⟨rfl, rfl, rfl, rfl⟩

theorem Moved.zombie (m : Ptr) : zombie t m = zombie s m := by
  rw [Pgrp.zombie, Pgrp.zombie, (h.fields m).1]

theorem Moved.exists_iff (hp : (s.proc p).pPgidp ≠ none) (m : Ptr) :
    (t.proc m).pPgidp ≠ none ↔ (s.proc m).pPgidp ≠ none := by
  by_cases hm : m = p
  · subst hm
    rw [h.self]
    exact iff_of_true (some_ne_none H) hp
  · rw [h.other m hm]

theorem Moved.books (hs : Books s) (hp : (s.proc p).pPgidp ≠ none) : Books t where
  member m g := by
    rw [h.mem]
    by_cases hm : m = p
    · subst hm
      rw [h.self, some_inj]
      simp [eq_comm]
    · rw [h.other m hm, hs.member]
      simp [hm]
  nodup := h.nodup
  child q c := by
    rw [(h.fields q).2.2.1, (h.fields c).2.1, h.exists_iff hp]
    exact hs.child q c
  childNodup q := by
    rw [(h.fields q).2.2.1]
    exact hs.childNodup q
  pid q r hq hr := by
    rw [(h.fields q).2.2.2, (h.fields r).2.2.2]
    exact hs.pid q r ((h.exists_iff hp q).mp hq) ((h.exists_iff hp r).mp hr)
  parent c q hc := by
    rw [(h.fields c).2.1, (h.fields q).1, h.exists_iff hp]
    exact hs.parent c q ((h.exists_iff hp c).mp hc)

theorem Moved.linked_other (hm : m ≠ p) (hparent : (s.proc m).pParent ≠ some p) :
    pglinked t m = pglinked s m := by
  refine pglinked_congr (h.fields m).2.1 ?_ fun q hq => ?_
  · rw [h.other m hm]
    exact ⟨rfl, rfl⟩
  · have hqp : q ≠ p := fun heq => hparent (heq ▸ hq)
    rw [h.other q hqp]
    exact ⟨rfl, rfl⟩

theorem Moved.linked_child (hm : m ≠ p) (hparent : (s.proc m).pParent = some p) :
    pglinked t m = decide (some H ≠ (s.proc m).pPgidp ∧ sess = (s.proc m).pSessp) := by
  rw [pglinked_of_parent ((h.fields m).2.1.trans hparent), h.self, h.other m hm]

theorem Moved.linked_self (hs : Books s) (hp : (s.proc p).pPgidp ≠ none) :
    pglinked t p = linkedIn s p H sess := by
  unfold linkedIn
  cases hq : (s.proc p).pParent with
  | none => rw [pglinked_none ((h.fields p).2.1.trans hq)]
  | some q =>
    have hqp : q ≠ p := (hs.parent p q hp hq).2.2
    rw [pglinked_of_parent ((h.fields p).2.1.trans hq), h.self, h.other q hqp]

theorem Moved.anchored_other (hs : Books s) (hg : g ≠ H) :
    Anchored t g ↔ Stays s p g ∨ ∃ m ∈ (s.group g).pglink, m ≠ p ∧ Pgrp.zombie s m = false ∧
      (s.proc m).pParent = some p ∧ (s.proc m).pSessp = sess := by
  have hmem : ∀ m, m ∈ (t.group g).pglink ↔ m ≠ p ∧ m ∈ (s.group g).pglink := fun m => by
    rw [h.mem]
    exact or_iff_right fun hno => hg hno.2
  have hchild : ∀ m, m ≠ p → (s.proc m).pParent = some p → m ∈ (s.group g).pglink →
      (pglinked t m = true ↔ (s.proc m).pSessp = sess) := by
    intro m hm hparent hin
    rw [h.linked_child hm hparent, hs.mem_pgidp hin, decide_eq_true_eq]
    exact ⟨fun hl => hl.2.symm, fun hl => ⟨fun heq => hg (some.inj heq).symm, hl.symm⟩⟩
  constructor
  · rintro ⟨m, hm, hz, hl⟩
    obtain ⟨hmp, hin⟩ := (hmem m).mp hm
    rw [h.zombie] at hz
    by_cases hparent : (s.proc m).pParent = some p
    · exact .inr ⟨m, hin, hmp, hz, hparent, (hchild m hmp hparent hin).mp hl⟩
    · exact .inl ⟨m, hin, hmp, hparent, hz, (h.linked_other hmp hparent) ▸ hl⟩
  · rintro (⟨m, hin, hmp, hparent, hz, hl⟩ | ⟨m, hin, hmp, hz, hparent, hsess⟩)
    · exact ⟨m, (hmem m).mpr ⟨hmp, hin⟩, (h.zombie m).trans hz, (h.linked_other hmp hparent).trans hl⟩
    · exact ⟨m, (hmem m).mpr ⟨hmp, hin⟩, (h.zombie m).trans hz, (hchild m hmp hparent hin).mpr hsess⟩

/-- What anchors the group the process is in: it does not link its children there. -/
theorem Moved.anchored_self (hs : Books s) (hp : (s.proc p).pPgidp ≠ none) :
    Anchored t H ↔ Stays s p H ∨ (Pgrp.zombie s p = false ∧ linkedIn s p H sess = true) := by
  constructor
  · rintro ⟨m, hm, hz, hl⟩
    rw [h.zombie] at hz
    rcases (h.mem m H).mp hm with ⟨rfl, -⟩ | ⟨hmp, hin⟩
    · rw [h.linked_self hs hp] at hl
      exact .inr ⟨hz, hl⟩
    have hparent : (s.proc m).pParent ≠ some p := fun hparent => by
      rw [h.linked_child hmp hparent, hs.mem_pgidp hin, decide_eq_true_eq] at hl
      exact hl.1 rfl
    exact .inl ⟨m, hin, hmp, hparent, hz, (h.linked_other hmp hparent) ▸ hl⟩
  · rintro (⟨m, hin, hmp, hparent, hz, hl⟩ | ⟨hz, hl⟩)
    · exact ⟨m, (h.mem m H).mpr (.inr ⟨hmp, hin⟩), (h.zombie m).trans hz,
        (h.linked_other hmp hparent).trans hl⟩
    · exact ⟨p, (h.mem p H).mpr (.inl ⟨rfl, rfl⟩), (h.zombie p).trans hz, (h.linked_self hs hp).trans hl⟩

end

/-- Where the process stays in its session and is not in the group, that is what anchored it. -/
theorem anchored_elsewhere (hs : Books s) (hg : (s.proc p).pPgidp ≠ some g) :
    (Stays s p g ∨ ∃ m ∈ (s.group g).pglink, m ≠ p ∧ zombie s m = false ∧
      (s.proc m).pParent = some p ∧ (s.proc m).pSessp = (s.proc p).pSessp) ↔ Anchored s g := by
  constructor
  · rintro (hstays | ⟨m, hin, -, hz, hparent, hsess⟩)
    · exact hstays.anchored
    · refine ⟨m, hin, hz, ?_⟩
      rw [pglinked_of_parent hparent, hs.mem_pgidp hin, decide_eq_true_eq]
      exact ⟨hg, hsess.symm⟩
  · rintro ⟨m, hin, hz, hl⟩
    have hmp : m ≠ p := fun heq => hg (heq ▸ hs.mem_pgidp hin)
    by_cases hparent : (s.proc m).pParent = some p
    · rw [pglinked_of_parent hparent, decide_eq_true_eq] at hl
      exact .inr ⟨m, hin, hmp, hz, hparent, hl.2.symm⟩
    · exact .inl ⟨m, hin, hmp, hparent, hz, hl⟩

variable [DecidableEq Ptr]

theorem Away.sameBut {u : Sys Ptr} (h : Away s v p G sess) (hu : SameBut v u) : Away s u p G sess where
  other m hm := by rw [hu.proc]; exact h.other m hm
  self := by rw [hu.proc]; exact h.self
  pglink g := by rw [hu.pglink]; exact h.pglink g

theorem away_out (s : Sys Ptr) (p : Ptr) (G : Pid) : Away s (out s p G) p G (s.proc p).pSessp where
  other _ hm := update_of_ne hm _ _
  self := update_self _ _ _
  pglink := pglink_out

section

variable (h : Away s v p G sess)
include h

theorem Away.not_mem (hs : Books s) (hG : (s.proc p).pPgidp = some G) (g : Pid) :
    p ∉ (v.group g).pglink := by
  rw [h.pglink]
  split_ifs with hg
  · exact (hs.nodup G).not_mem_erase
  · exact fun hmem => hg (some.inj ((hs.mem_pgidp hmem).symm.trans hG))

theorem Away.mem_iff (hm : m ≠ p) (g : Pid) : m ∈ (v.group g).pglink ↔ m ∈ (s.group g).pglink := by
  rw [h.pglink]
  split_ifs with hg
  · subst hg
    exact List.mem_erase_of_ne hm
  · exact .rfl

theorem Away.joined (hs : Books s) (hG : (s.proc p).pPgidp = some G) (H : Pid) :
    Moved s (joined v p H) p H sess where
  other m hm := (update_of_ne hm _ _).trans (h.other m hm)
  self := by
    refine (update_self _ _ _).trans ?_
    rw [h.self]
  mem m g := by
    rw [pglink_joined]
    by_cases hm : m = p
    · subst hm
      have hnot := h.not_mem hs hG
      split_ifs with hg
      · simp [hg]
      · simp [hg, hnot g]
    · split_ifs with hg
      · subst hg
        simp [hm, h.mem_iff hm]
      · simp [hm, h.mem_iff hm]
  nodup g := by
    have hold : ∀ g, (v.group g).pglink.Nodup := fun g => by
      rw [h.pglink]
      split_ifs
      · exact (hs.nodup G).erase p
      · exact hs.nodup g
    rw [pglink_joined]
    split_ifs
    · exact List.nodup_cons.mpr ⟨h.not_mem hs hG H, hold H⟩
    · exact hold g

/-- What anchors a group the process does not join. -/
theorem Away.anchored_iff (hs : Books s) (hG : (s.proc p).pPgidp = some G)
    (g : Pid) : Anchored v g ↔ Stays s p g ∨ ∃ m ∈ (s.group g).pglink, m ≠ p ∧ zombie s m = false ∧
      (s.proc m).pParent = some p ∧ (s.proc m).pSessp = sess := by
  have hzombie : ∀ m, m ≠ p → zombie v m = zombie s m := fun m hm => by
    rw [zombie, zombie, h.other m hm]
  have hother : ∀ m, m ≠ p → (s.proc m).pParent ≠ some p → pglinked v m = pglinked s m := by
    intro m hm hparent
    refine pglinked_congr (by rw [h.other m hm]) (by rw [h.other m hm]; exact ⟨rfl, rfl⟩)
      fun q hq => ?_
    rw [h.other q fun heq => hparent (heq ▸ hq)]
    exact ⟨rfl, rfl⟩
  have hchild : ∀ m, m ≠ p → (s.proc m).pParent = some p → m ∈ (s.group g).pglink →
      (pglinked v m = true ↔ (s.proc m).pSessp = sess) := by
    intro m hm hparent hmem
    have hparent' : (v.proc m).pParent = some p := by rw [h.other m hm, hparent]
    rw [pglinked_of_parent hparent', h.self, h.other m hm, hs.mem_pgidp hmem, decide_eq_true_eq]
    exact ⟨fun hl => hl.2.symm, fun hl => ⟨(some_ne_none g).symm, hl.symm⟩⟩
  constructor
  · rintro ⟨m, hm, hz, hl⟩
    have hmp : m ≠ p := fun heq => h.not_mem hs hG g (heq ▸ hm)
    have hmem := (h.mem_iff hmp g).mp hm
    rw [hzombie m hmp] at hz
    by_cases hparent : (s.proc m).pParent = some p
    · exact .inr ⟨m, hmem, hmp, hz, hparent, (hchild m hmp hparent hmem).mp hl⟩
    · exact .inl ⟨m, hmem, hmp, hparent, hz, (hother m hmp hparent) ▸ hl⟩
  · rintro (⟨m, hmem, hmp, hparent, hz, hl⟩ | ⟨m, hmem, hmp, hz, hparent, hsess⟩)
    · exact ⟨m, (h.mem_iff hmp g).mpr hmem, (hzombie m hmp).trans hz, (hother m hmp hparent).trans hl⟩
    · exact ⟨m, (h.mem_iff hmp g).mpr hmem, (hzombie m hmp).trans hz,
        (hchild m hmp hparent hmem).mpr hsess⟩

end

end Svr42.Pgrp
