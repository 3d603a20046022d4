import Svr42.PgrpMoves

/-! `setpgid` and `sess_create`: when the flags are right after a process has changed its group. -/

namespace Svr42.Pgrp
open Function List

variable {Ptr : Type} {s t v : Sys Ptr} {p q m : Ptr} {G H g : Pid} {sess : Nat}

def AllRight (s : Sys Ptr) : Prop := ∀ g, Right s g

/-- What `setpgid` does not look at does not matter. -/
structure ChangeHeeds (s : Sys Ptr) (p : Ptr) (H : Pid) : Prop where
  /-- Where the new group is not orphaned, something anchors it when the process is in it. -/
  joins : zombie s p = false → (s.group H).pgorphaned = false → (s.group H).pglink ≠ [] →
    linkedIn s p H (s.proc p).pSessp = true ∨ Stays s p H
  /-- A zombie does not clear the flag. -/
  dead : zombie s p = true → (s.group H).pgorphaned = true →
    (∃ m ∈ (s.group H).pglink, zombie s m = false) → linkedIn s p H (s.proc p).pSessp = false
  /-- The first process of an orphaned group does not leave children there. -/
  first : ∀ G, (s.group G).pglink.head? = some p → (s.group G).pgorphaned = true →
    ∀ m ∈ (s.group G).pglink, m ≠ p → zombie s m = false → (s.proc m).pParent = some p →
      (s.proc m).pSessp ≠ (s.proc p).pSessp

theorem stays_of_anchored (hs : Books s) (hp : (s.proc p).pStat = .szomb) (hanch : Anchored s g) :
    Stays s p g := by
  obtain ⟨m, hm, hz, hl⟩ := hanch
  refine ⟨m, hm, fun heq => ?_, hs.zombie_childless hp ?_, hz, hl⟩
  · exact zombie_eq_false.mp (heq ▸ hz) hp
  · rw [hs.mem_pgidp hm]
    exact Option.some_ne_none g

/-- The flag of the group the process has joined. -/
theorem joins_right (hs : Books s) (hright : AllRight s) (hheeds : ChangeHeeds s p H)
    (hlive : ∃ m, (m = p ∨ m ∈ (s.group H).pglink) ∧ zombie s m = false) :
    ((s.group H).pglink = [] ∧ linkedIn s p H (s.proc p).pSessp = false ∨
        (s.group H).pglink ≠ [] ∧ (s.group H).pgorphaned = true ∧
          linkedIn s p H (s.proc p).pSessp = false) ↔
      ¬ (Stays s p H ∨ (zombie s p = false ∧ linkedIn s p H (s.proc p).pSessp = true)) := by
  by_cases hempty : (s.group H).pglink = []
  · have hnone : ¬ Stays s p H := fun ⟨m, hm, _⟩ => by
      rw [hempty] at hm
      exact not_mem_nil hm
    have hz : zombie s p = false := by
      obtain ⟨m, rfl | hm, hz⟩ := hlive
      · exact hz
      · rw [hempty] at hm
        cases hm
    simp [hempty, hnone, hz]
  cases hz : zombie s p with
  | false =>
    cases hset : (s.group H).pgorphaned with
    | false =>
      have hanch := hheeds.joins hz hset hempty
      simp only [hempty, Bool.false_eq_true]
      tauto
    | true =>
      have hnone := (hright H).not_stays hset p
      simp [hempty, hnone]
  | true =>
    have hin : ∃ m ∈ (s.group H).pglink, zombie s m = false := by
      obtain ⟨m, rfl | hm, hm'⟩ := hlive
      · exact absurd (hz.symm.trans hm') (by decide)
      · exact ⟨m, hm, hm'⟩
    cases hset : (s.group H).pgorphaned with
    | false =>
      have hanch : Anchored s H := by
        by_contra hno
        exact absurd (hset.symm.trans ((hright H hin).mpr hno)) (by decide)
      simp [hempty, stays_of_anchored hs (of_decide_eq_true hz) hanch]
    | true =>
      have hnone := (hright H).not_stays hset p
      simp [hempty, hnone, hheeds.dead hz hset hin]

variable (hs : Books s) (hG : (s.proc p).pPgidp = some G)

include hG in
theorem pgidp_ne : (s.proc p).pPgidp ≠ none := by
  rw [hG]
  exact Option.some_ne_none G

variable [DecidableEq Ptr]

theorem leaves_right {X : Prop} (hrest : (s.group g).pglink.erase p ≠ [])
    (hfirst : (s.group g).pgorphaned = true → (s.group g).pglink.head? = some p → ¬ X) :
    (((s.group g).pgorphaned = true ∨ (g = g ∧ (s.group g).pglink.erase p ≠ [] ∧ ¬ X)) ∧
        ¬ (g = g ∧ (s.group g).pglink.head? ≠ some p ∧ X)) ↔ ¬ X := by
  tauto

include hs hG

omit hs in
theorem change_spec :
    SameBut (pgjoin (pgexit s p) p H) (change s p H) ∧ ∀ i, ((change s p H).group i).pgorphaned = true ↔
        ((pgjoin (pgexit s p) p H).group i).pgorphaned = true ∧
          ¬ (i = G ∧ (s.group G).pglink.head? ≠ some p ∧ Anchored (pgjoin (pgexit s p) p H) G) := by
  unfold change
  rw [hG]
  by_cases hfirst : (s.group G).pglink.head? = some p
  · rw [Option.filter_some, if_neg (by simpa using hfirst)]
    exact ⟨SameBut.refl _, fun i => ⟨fun h => ⟨h, fun hno => hno.2.1 hfirst⟩, fun h => h.1⟩⟩
  rw [Option.filter_some, if_pos (by simpa using hfirst)]
  dsimp only
  split_ifs with hflag
  · refine ⟨unorphan_same G, fun i => (flag_unorphan i G).trans ?_⟩
    exact and_congr_right fun _ => not_congr (and_congr_right fun _ =>
      ⟨fun h => ⟨hfirst, h⟩, fun h => h.2⟩)
  · refine ⟨SameBut.refl _, fun i => ⟨fun h => ⟨h, fun hno => hflag ?_⟩, fun h => h.1⟩⟩
    rwa [← hno.1]

theorem moved_change (H : Pid) : Moved s (pgjoin (pgexit s p) p H) p H (s.proc p).pSessp :=
  (((away_out s p G).sameBut (pgexit_spec hG).1).joined hs hG H).sameBut (pgjoin_spec _ p H).1

omit hs in
theorem pgexit_group (hg : g ≠ G) : ((pgexit s p).group g).pglink = (s.group g).pglink ∧
      ((pgexit s p).group g).pgorphaned = (s.group g).pgorphaned := by
  obtain ⟨hsame, hflag⟩ := pgexit_spec hG
  constructor
  · rw [hsame.pglink, pglink_out, if_neg hg]
  · rw [Bool.eq_iff_iff, hflag]
    exact or_iff_left fun hno => hg hno.1

theorem change_right (hright : AllRight s) (hne : H ≠ G)
    (hheeds : ChangeHeeds s p H) : AllRight (change s p H) := by
  have hp := pgidp_ne hG
  obtain ⟨hexit, hleft⟩ := pgexit_spec (s := s) hG
  have hmoved := moved_change hs hG H
  obtain ⟨hjoin, hflagJ⟩ := pgjoin_spec (pgexit s p) p H
  obtain ⟨hsame, hflag⟩ := change_spec (s := s) (H := H) hG
  have hlinkSelf : pglinked (joined (pgexit s p) p H) p = linkedIn s p H (s.proc p).pSessp := by
    rw [← hjoin.linked, hmoved.linked_self hs hp]
  obtain ⟨hlistH, hflagH⟩ := pgexit_group hG hne
  have hanch : ∀ g, Anchored (change s p H) g ↔ Anchored (pgjoin (pgexit s p) p H) g := by
    intro g
    unfold Anchored
    rw [hsame.pglink]
    simp only [hsame.zombie, hsame.linked]
  intro g hlive
  rw [hanch, hflag, hflagJ]
  have hlive' : ∃ m ∈ ((pgjoin (pgexit s p) p H).group g).pglink, zombie s m = false := by
    obtain ⟨m, hm, hz⟩ := hlive
    rw [hsame.pglink] at hm
    rw [hsame.zombie, hmoved.zombie] at hz
    exact ⟨m, hm, hz⟩
  by_cases hgH : g = H
  · subst hgH
    rw [if_pos rfl, hmoved.anchored_self hs hp, hlistH, hflagH, hlinkSelf]
    rw [and_iff_left fun hno => hne hno.1]
    refine joins_right hs hright hheeds ?_
    obtain ⟨m, hm, hz⟩ := hlive'
    exact ⟨m, ((hmoved.mem m g).mp hm).imp (fun h => h.1) fun h => h.2, hz⟩
  rw [if_neg hgH]
  have hlive : ∃ m ∈ (s.group g).pglink, m ≠ p ∧ zombie s m = false := by
    obtain ⟨m, hm, hz⟩ := hlive'
    rcases (hmoved.mem m g).mp hm with ⟨-, heq⟩ | ⟨hmp, hin⟩
    · exact absurd heq hgH
    · exact ⟨m, hin, hmp, hz⟩
  rw [hmoved.anchored_other hs hgH]
  by_cases hgG : g = G
  · subst hgG
    rw [hmoved.anchored_other hs hgH, hleft, (away_out s p g).anchored_iff hs hG]
    refine leaves_right (s := s) ?_ fun hset hfirst hanch => ?_
    · obtain ⟨m, hin, hmp, -⟩ := hlive
      exact ne_nil_of_mem ((mem_erase_of_ne hmp).mpr hin)
    · rcases hanch with hstays | ⟨m, hin, hmp, hz, hparent, hsess⟩
      · exact (hright g).not_stays hset p hstays
      · exact hheeds.first g hfirst hset m hin hmp hz hparent hsess
  · rw [(pgexit_group hG hgG).2, anchored_elsewhere hs fun heq =>
      hgG (Option.some.inj (heq.symm.trans hG))]
    obtain ⟨m, hm, -, hz⟩ := hlive
    refine (and_iff_left fun hno => hgG hno.1).trans (hright g ⟨m, hm, hz⟩)

theorem change_books (H : Pid) : Books (change s p H) := by
  exact (change_spec hG).1.books ((moved_change hs hG H).books hs (pgidp_ne hG))

/-! ### A new session -/

def SessHeeds (s : Sys Ptr) (p : Ptr) : Prop :=
  ∀ G, (s.proc p).pPgidp = some G → (s.group G).pgorphaned = false →
    (∃ m ∈ (s.group G).pglink, m ≠ p ∧ zombie s m = false ∧ (s.proc m).pParent = some p ∧
      (s.proc m).pSessp = (s.proc p).pSessp) → Stays s p G

def FreshSess (s : Sys Ptr) (sess : Nat) : Prop :=
  ∀ m, (s.proc m).pPgidp ≠ none → (s.proc m).pSessp ≠ sess

def left (s : Sys Ptr) (p : Ptr) : Sys Ptr :=
  (s.proc p).pChild.foldl (leaveOne p (s.proc p).pPgidp) s

def alone (s : Sys Ptr) (p : Ptr) (sess : Nat) : Sys Ptr :=
  let s := pgexit (left s p) p
  let s := { s with sSid := update s.sSid sess (s.proc p).pPidp }
  setProc s p { s.proc p with pSessp := sess }

omit hs in
theorem away_alone (sess : Nat) : Away s (alone s p sess) p G sess := by
  have hleft : SameBut s (left s p) := (leave_spec s p _).1
  have hG' : ((left s p).proc p).pPgidp = some G := by rw [hleft.proc, hG]
  have hexit := (pgexit_spec hG').1
  refine ⟨fun m hm => ?_, ?_, fun g => ?_⟩
  · calc (alone s p sess).proc m = (pgexit (left s p) p).proc m := update_of_ne hm _ _
      _ = (out (left s p) p G).proc m := by rw [hexit.proc]
      _ = (left s p).proc m := (away_out _ p G).other m hm
      _ = s.proc m := by rw [hleft.proc]
  · refine (update_self _ _ _).trans ?_
    rw [hexit.proc, (away_out _ p G).self, hleft.proc]
  · refine (hexit.pglink g).trans ?_
    rw [pglink_out, hleft.pglink, hleft.pglink]

omit hs in
theorem pPidp_alone (sess : Nat) : ((alone s p sess).proc p).pPidp = (s.proc p).pPidp := by
  rw [(away_alone hG sess).self]

omit hs in
theorem sessCreate_eq (sess : Nat) :
    sessCreate s p sess = pgjoin (alone s p sess) p (s.proc p).pPidp := by
  rw [← pPidp_alone hG sess]
  rfl

/-- The flags when the process is in its session. -/
theorem flag_alone (g : Pid) :
    ((alone s p sess).group g).pgorphaned = true ↔ (s.group g).pgorphaned = true ∨
      (g ≠ G ∧ (∃ cp ∈ (s.proc p).pChild, (s.proc cp).pPgidp = some g) ∧ ¬ Stays s p g) ∨
      (g = G ∧ (s.group G).pglink.erase p ≠ [] ∧ ¬ (Stays s p G ∨ ∃ m ∈ (s.group G).pglink,
        m ≠ p ∧ zombie s m = false ∧ (s.proc m).pParent = some p ∧
          (s.proc m).pSessp = (s.proc p).pSessp)) := by
  have hleft : SameBut s (left s p) := (leave_spec s p _).1
  have hflag : ((left s p).group g).pgorphaned = true ↔ _ := (leave_spec s p _).2 g
  have hG' : ((left s p).proc p).pPgidp = some G := by rw [hleft.proc, hG]
  have hstays : Stays (left s p) p G ↔ Stays s p G := by
    unfold Stays
    rw [hleft.pglink]
    simp only [hleft.zombie, hleft.linked, hleft.proc]
  have hholds : g ≠ G → ((∃ m ∈ (s.group g).pglink, (s.proc m).pParent ≠ some p ∧
      zombie s m = false ∧ pglinked s m = true) ↔ Stays s p g) := by
    intro hg
    refine exists_congr fun m => and_congr_right fun hm => ?_
    have hmp : m ≠ p := fun heq => by
      rw [heq] at hm
      exact hg (Option.some.inj ((hs.mem_pgidp hm).symm.trans hG))
    exact (and_iff_right hmp).symm
  calc ((alone s p sess).group g).pgorphaned = true
      ↔ ((pgexit (left s p) p).group g).pgorphaned = true := .rfl
    _ ↔ _ := (pgexit_spec hG').2 g
    _ ↔ _ := by
      rw [(away_out _ p G).anchored_iff (hleft.books hs) hG', hstays, hleft.pglink, hflag, hG, or_assoc]
      simp only [hleft.zombie, hleft.proc]
      refine or_congr_right (or_congr_left ?_)
      constructor
      · rintro ⟨hchild, hne, hno⟩
        have hg : g ≠ G := fun heq => hne (by rw [heq])
        exact ⟨hg, hchild, fun h => hno ((hholds hg).mpr h)⟩
      · rintro ⟨hg, hchild, hno⟩
        exact ⟨hchild, fun heq => hg (Option.some.inj heq).symm, fun h => hno ((hholds hg).mp h)⟩

theorem moved_sessCreate (sess : Nat) : Moved s (sessCreate s p sess) p (s.proc p).pPidp sess := by
  rw [sessCreate_eq hG]
  exact ((away_alone hG sess).joined hs hG _).sameBut (pgjoin_spec _ p _).1

theorem sessCreate_right (hright : AllRight s) (hfresh : FreshSess s sess)
    (hnone : ∀ m ∈ (s.group (s.proc p).pPidp).pglink, m = p)
    (hheeds : SessHeeds s p) : AllRight (sessCreate s p sess) := by
  have hp := pgidp_ne hG
  have hmoved := moved_sessCreate hs hG sess
  have haway := away_alone hG sess
  obtain ⟨hjoin, hflag⟩ := pgjoin_spec (alone s p sess) p (s.proc p).pPidp
  rw [← sessCreate_eq hG] at hjoin hflag
  have hself : linkedIn s p (s.proc p).pPidp sess = false := by
    unfold linkedIn
    cases hq : (s.proc p).pParent with
    | none => rfl
    | some q => exact decide_eq_false fun h => hfresh q (hs.parent p q hp hq).1 h.2
  intro g hlive
  by_cases hg : g = (s.proc p).pPidp
  · subst hg
    have hempty : ((alone s p sess).group (s.proc p).pPidp).pglink = [] := by
      refine eq_nil_iff_forall_not_mem.mpr fun m hm => ?_
      have hmp : m ≠ p := fun heq => haway.not_mem hs hG _ (heq ▸ hm)
      exact hmp (hnone m ((haway.mem_iff hmp _).mp hm))
    have hlinked : pglinked (joined (alone s p sess) p (s.proc p).pPidp) p = false := by
      rw [← hjoin.linked, hmoved.linked_self hs hp, hself]
    have hstays : ¬ Stays s p (s.proc p).pPidp := fun ⟨m, hm, hmp, _⟩ => hmp (hnone m hm)
    rw [hflag, if_pos rfl, hmoved.anchored_self hs hp, hself, hlinked]
    simp [hempty, hstays]
  have hlive' : ∃ m ∈ (s.group g).pglink, m ≠ p ∧ zombie s m = false := by
    obtain ⟨m, hm, hz⟩ := hlive
    rcases (hmoved.mem m g).mp hm with ⟨-, heq⟩ | ⟨hmp, hin⟩
    · exact absurd heq hg
    · exact ⟨m, hin, hmp, by rwa [hmoved.zombie] at hz⟩
  have hanch : Anchored (sessCreate s p sess) g ↔ Stays s p g := by
    rw [hmoved.anchored_other hs hg]
    refine or_iff_left fun ⟨m, hin, _, _, _, hsess⟩ => hfresh m ?_ hsess
    rw [hs.mem_pgidp hin]
    exact Option.some_ne_none g
  rw [hflag, if_neg hg, flag_alone hs hG, hanch]
  obtain ⟨m, hin, hmp, hz⟩ := hlive'
  cases hset : (s.group g).pgorphaned with
  | true =>
    exact iff_of_true (.inl rfl) ((hright g).not_stays hset p)
  | false =>
    have hanch : Anchored s g := by
      by_contra hno
      exact absurd (hset.symm.trans ((hright g ⟨m, hin, hz⟩).mpr hno)) (by decide)
    by_cases hgG : g = G
    · subst hgG
      have herase : (s.group g).pglink.erase p ≠ [] := ne_nil_of_mem ((mem_erase_of_ne hmp).mpr hin)
      have hheed := hheeds g hG hset
      simp only [Bool.false_eq_true, ne_eq, not_true, false_and, false_or, true_and, herase,
        not_false_iff]
      exact not_congr ⟨fun h => h.elim id hheed, .inl⟩
    · have hchild : ¬ Stays s p g → ∃ cp ∈ (s.proc p).pChild, (s.proc cp).pPgidp = some g := by
        intro hno
        rcases (anchored_elsewhere (p := p) hs fun heq =>
          hgG (Option.some.inj (heq.symm.trans hG))).mpr hanch with hstays | ⟨c, hc, _, _, hpar, _⟩
        · exact absurd hstays hno
        · exact ⟨c, hs.child_of_member hc hpar, hs.mem_pgidp hc⟩
      simp only [Bool.false_eq_true, false_or, hgG, false_and, or_false, ne_eq, not_false_iff, true_and]
      exact and_iff_right_of_imp hchild

theorem sessCreate_books (sess : Nat) : Books (sessCreate s p sess) := by
  exact (moved_sessCreate hs hG sess).books hs (pgidp_ne hG)

end Svr42.Pgrp
