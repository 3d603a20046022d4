import Svr42.PgrpModel

/-! When the orphaned flag of a group is right, and what the loops over groups and children make of
the flags. -/

namespace Svr42.Pgrp
open List

variable {Ptr : Type} {s t u : Sys Ptr} {p q m : Ptr} {g : Pid}

def Anchored (s : Sys Ptr) (g : Pid) : Prop :=
  ∃ m ∈ (s.group g).pglink, zombie s m = false ∧ pglinked s m = true

/-- The flag of a group that has a member that is no zombie is set if nothing anchors it. -/
def Right (s : Sys Ptr) (g : Pid) : Prop :=
  (∃ m ∈ (s.group g).pglink, zombie s m = false) →
    ((s.group g).pgorphaned = true ↔ ¬ Anchored s g)

def Stays (s : Sys Ptr) (p : Ptr) (g : Pid) : Prop :=
  ∃ m ∈ (s.group g).pglink, m ≠ p ∧ (s.proc m).pParent ≠ some p ∧
    zombie s m = false ∧ pglinked s m = true

/-- The groups, the children and the parents agree. -/
structure Books (s : Sys Ptr) : Prop where
  member : ∀ p g, p ∈ (s.group g).pglink ↔ (s.proc p).pPgidp = some g
  nodup : ∀ g, (s.group g).pglink.Nodup
  child : ∀ p c, c ∈ (s.proc p).pChild ↔
    (s.proc c).pParent = some p ∧ (s.proc c).pPgidp ≠ none
  childNodup : ∀ p, (s.proc p).pChild.Nodup
  pid : ∀ p q, (s.proc p).pPgidp ≠ none → (s.proc q).pPgidp ≠ none →
    (s.proc p).pPidp = (s.proc q).pPidp → p = q
  parent : ∀ c p, (s.proc c).pPgidp ≠ none → (s.proc c).pParent = some p →
    (s.proc p).pPgidp ≠ none ∧ (s.proc p).pStat ≠ .szomb ∧ p ≠ c

/-- Only flags differ. -/
structure SameBut (s t : Sys Ptr) : Prop where
  proc : t.proc = s.proc
  pglink : ∀ g, (t.group g).pglink = (s.group g).pglink
  sSid : t.sSid = s.sSid

theorem SameBut.refl (s : Sys Ptr) : SameBut s s := ⟨rfl, fun _ => rfl, rfl⟩

theorem SameBut.trans (h : SameBut s t) (h' : SameBut t u) : SameBut s u :=
  ⟨h'.proc.trans h.proc, fun g => (h'.pglink g).trans (h.pglink g), h'.sSid.trans h.sSid⟩

theorem SameBut.books (h : SameBut s t) (hs : Books s) : Books t where
  member p g := by rw [h.pglink, h.proc]; exact hs.member p g
  nodup g := by rw [h.pglink]; exact hs.nodup g
  child := by rw [h.proc]; exact hs.child
  childNodup := by rw [h.proc]; exact hs.childNodup
  pid := by rw [h.proc]; exact hs.pid
  parent := by rw [h.proc]; exact hs.parent

theorem Books.zombie_childless (h : Books s) (hp : (s.proc p).pStat = .szomb)
    (hm : (s.proc m).pPgidp ≠ none) : (s.proc m).pParent ≠ some p :=
  fun hparent => (h.parent m p hm hparent).2.1 hp

theorem Books.mem_pgidp (h : Books s) (hm : m ∈ (s.group g).pglink) : (s.proc m).pPgidp = some g :=
  (h.member m g).mp hm

theorem Books.child_of_member (h : Books s) (hm : m ∈ (s.group g).pglink)
    (hparent : (s.proc m).pParent = some p) : m ∈ (s.proc p).pChild :=
  (h.child p m).mpr ⟨hparent, by rw [h.mem_pgidp hm]; exact Option.some_ne_none g⟩

theorem zombie_eq_false : zombie s m = false ↔ (s.proc m).pStat ≠ .szomb := decide_eq_false_iff_not

theorem pglinked_of_parent (h : (s.proc m).pParent = some p) :
    pglinked s m = decide ((s.proc p).pPgidp ≠ (s.proc m).pPgidp ∧
      (s.proc p).pSessp = (s.proc m).pSessp) := by
  rw [pglinked, h]

theorem pglinked_none (h : (s.proc m).pParent = none) : pglinked s m = false := by
  rw [pglinked, h]

theorem pglinked_congr (hparent : (t.proc m).pParent = (s.proc m).pParent)
    (hself : (t.proc m).pPgidp = (s.proc m).pPgidp ∧ (t.proc m).pSessp = (s.proc m).pSessp)
    (hother : ∀ q, (s.proc m).pParent = some q →
      (t.proc q).pPgidp = (s.proc q).pPgidp ∧ (t.proc q).pSessp = (s.proc q).pSessp) :
    pglinked t m = pglinked s m := by
  cases hq : (s.proc m).pParent with
  | none => rw [pglinked_none hq, pglinked_none (hparent.trans hq)]
  | some q =>
    rw [pglinked_of_parent hq, pglinked_of_parent (hparent.trans hq), hself.1, hself.2,
      (hother q hq).1, (hother q hq).2]

theorem SameBut.linked (h : SameBut s t) (m : Ptr) : pglinked t m = pglinked s m := by
  rw [pglinked, pglinked, h.proc]

theorem SameBut.zombie (h : SameBut s t) (m : Ptr) : zombie t m = zombie s m := by
  rw [Pgrp.zombie, Pgrp.zombie, h.proc]

theorem Stays.anchored (h : Stays s p g) : Anchored s g := by
  obtain ⟨m, hm, -, -, hz, hl⟩ := h
  exact ⟨m, hm, hz, hl⟩

theorem Right.not_anchored (h : Right s g) (hflag : (s.group g).pgorphaned = true) :
    ¬ Anchored s g := fun hanch => by
  obtain ⟨m, hm, hz, hl⟩ := hanch
  exact (h ⟨m, hm, hz⟩).mp hflag ⟨m, hm, hz, hl⟩

theorem Right.not_stays (h : Right s g) (hflag : (s.group g).pgorphaned = true) (p : Ptr) :
    ¬ Stays s p g :=
  fun hstays => h.not_anchored hflag hstays.anchored

/-! ### The loops -/

theorem setOrphaned_same (g : Pid) (b : Bool) : SameBut s (setOrphaned s g b) := by
  refine ⟨rfl, fun i => ?_, rfl⟩
  by_cases hi : i = g
  · subst hi
    simp [setOrphaned, setGroup]
  · simp [setOrphaned, setGroup, hi]

theorem flag_setOrphaned (i g : Pid) (b : Bool) :
    ((setOrphaned s g b).group i).pgorphaned = if i = g then b else (s.group i).pgorphaned := by
  by_cases hi : i = g
  · subst hi
    simp [setOrphaned, setGroup]
  · simp [setOrphaned, setGroup, hi]

theorem orphan_same (g : Pid) (holds : Ptr → Bool) : SameBut s (orphan s g holds) := by
  unfold orphan
  split_ifs
  · exact SameBut.refl s
  · exact ⟨(setOrphaned_same g true).proc, (setOrphaned_same g true).pglink, rfl⟩
  · exact setOrphaned_same g true

theorem flag_orphan (i g : Pid) (holds : Ptr → Bool) : ((orphan s g holds).group i).pgorphaned = true ↔
      (s.group i).pgorphaned = true ∨
        (i = g ∧ ¬ ∃ m ∈ (s.group g).pglink, holds m = true) := by
  have hset : ∀ t : Sys Ptr, t.group = (setOrphaned s g true).group →
      ((t.group i).pgorphaned = true ↔ (s.group i).pgorphaned = true ∨ i = g) := by
    intro t ht
    rw [ht, flag_setOrphaned]
    split_ifs with hi
    · exact iff_of_true rfl (Or.inr hi)
    · exact ⟨Or.inl, fun h => h.resolve_right hi⟩
  unfold orphan
  split_ifs with hany hstop
  · have hholds := any_eq_true.mp hany
    exact ⟨Or.inl, fun h => h.resolve_right fun hno => hno.2 hholds⟩
  all_goals
    have hnone : ¬ ∃ m ∈ (s.group g).pglink, holds m = true :=
      fun hm => hany (any_eq_true.mpr hm)
    rw [hset _ rfl]
    exact or_congr_right ⟨fun hi => ⟨hi, hnone⟩, fun hi => hi.1⟩

theorem unorphan_same (g : Pid) : SameBut s (unorphan s g) := by
  unfold unorphan
  split_ifs
  · exact setOrphaned_same g false
  · exact SameBut.refl s

theorem flag_unorphan (i g : Pid) : ((unorphan s g).group i).pgorphaned = true ↔
      (s.group i).pgorphaned = true ∧ ¬ (i = g ∧ Anchored s g) := by
  have hiff : ((s.group g).pglink.any fun mp => !zombie s mp && pglinked s mp) = true ↔
      Anchored s g := by
    simp only [any_eq_true, Bool.and_eq_true, Bool.not_eq_true', Anchored]
  unfold unorphan
  split_ifs with hany
  · rw [flag_setOrphaned]
    split_ifs with hi
    · exact iff_of_false id fun h => h.2 ⟨hi, hiff.mp hany⟩
    · exact ⟨fun h => ⟨h, fun hno => hi hno.1⟩, fun h => h.1⟩
  · exact ⟨fun h => ⟨h, fun hno => hany (hiff.mpr hno.2)⟩, fun h => h.1⟩

theorem foldl_visit {visit : Sys Ptr → Ptr → Sys Ptr} {ok holds : Pid → Prop}
    (hvisit : ∀ t cp, SameBut s t → SameBut t (visit t cp) ∧ ∀ g,
      ((visit t cp).group g).pgorphaned = true ↔
        (t.group g).pgorphaned = true ∨ ((s.proc cp).pPgidp = some g ∧ ok g ∧ ¬ holds g))
    (cps : List Ptr) (ht : SameBut s t) :
    SameBut s (cps.foldl visit t) ∧ ∀ g, ((cps.foldl visit t).group g).pgorphaned = true ↔
      (t.group g).pgorphaned = true ∨
        ((∃ cp ∈ cps, (s.proc cp).pPgidp = some g) ∧ ok g ∧ ¬ holds g) := by
  induction cps generalizing t with
  | nil => exact ⟨ht, fun g => by simp⟩
  | cons cp cps ih =>
    obtain ⟨hsame, hflag⟩ := hvisit t cp ht
    obtain ⟨hrest, hflags⟩ := ih (ht.trans hsame)
    refine ⟨hrest, fun g => (hflags g).trans ?_⟩
    rw [hflag, or_assoc]
    refine or_congr_right ?_
    simp only [mem_cons, exists_eq_or_imp]
    tauto

variable [DecidableEq Ptr]

/-- The members that hold a group in the loop of `pgdetach` are those `p` has no part in. -/
theorem stays_iff (h : SameBut s t) (p : Ptr) (g : Pid) :
    (∃ m ∈ (t.group g).pglink, (m ≠ p && (t.proc m).pParent ≠ some p && !zombie t m &&
      pglinked t m) = true) ↔ Stays s p g := by
  rw [h.pglink, h.proc]
  refine exists_congr fun m => and_congr_right fun _ => ?_
  rw [h.zombie, h.linked]
  simp only [ne_eq, decide_not, Bool.and_eq_true, Bool.not_eq_true', decide_eq_false_iff_not, and_assoc]

theorem pgdetach_spec (s : Sys Ptr) (p : Ptr) :
    SameBut s (pgdetach s p) ∧ ∀ g, ((pgdetach s p).group g).pgorphaned = true ↔
      (s.group g).pgorphaned = true ∨
        ((∃ cp ∈ (s.proc p).pChild, (s.proc cp).pPgidp = some g) ∧ True ∧ ¬ Stays s p g) := by
  refine foldl_visit (fun t cp ht => ?_) _ (SameBut.refl s)
  unfold detachOne
  rw [ht.proc]
  cases hpgp : (s.proc cp).pPgidp with
  | none => exact ⟨SameBut.refl t, fun g => by simp⟩
  | some pgp =>
    dsimp only
    split_ifs with hflag
    · refine ⟨SameBut.refl t, fun g => ⟨.inl, fun h => h.elim id fun hg => ?_⟩⟩
      rwa [← Option.some.inj hg.1]
    · refine ⟨orphan_same _ _, fun g => (flag_orphan g pgp _).trans (or_congr_right ?_)⟩
      have hstays := stays_iff ht p pgp
      rw [ht.proc] at hstays
      rw [hstays]
      constructor
      · rintro ⟨rfl, hno⟩
        exact ⟨rfl, trivial, hno⟩
      · rintro ⟨hg, -, hno⟩
        obtain rfl := Option.some.inj hg
        exact ⟨rfl, hno⟩

/-- In the loop of `sess_create` the group of the process itself is left out. -/
theorem leave_spec (s : Sys Ptr) (p : Ptr) (mypgp : Option Pid) :
    SameBut s ((s.proc p).pChild.foldl (leaveOne p mypgp) s) ∧
      ∀ g, (((s.proc p).pChild.foldl (leaveOne p mypgp) s).group g).pgorphaned = true ↔
        (s.group g).pgorphaned = true ∨
          ((∃ cp ∈ (s.proc p).pChild, (s.proc cp).pPgidp = some g) ∧ mypgp ≠ some g ∧
            ¬ ∃ m ∈ (s.group g).pglink, (s.proc m).pParent ≠ some p ∧ zombie s m = false ∧
              pglinked s m = true) := by
  refine foldl_visit (fun t cp ht => ?_) _ (SameBut.refl s)
  unfold leaveOne pgorphan
  rw [ht.proc]
  cases hpgp : (s.proc cp).pPgidp with
  | none => exact ⟨SameBut.refl t, fun g => by simp⟩
  | some pgp =>
    dsimp only
    by_cases hskip : (t.group pgp).pgorphaned = true ∨ mypgp = some pgp
    · rw [if_pos hskip]
      refine ⟨SameBut.refl t, fun g => ⟨.inl, fun h => h.elim id fun hg => ?_⟩⟩
      obtain rfl := Option.some.inj hg.1
      exact hskip.resolve_right hg.2.1
    rw [if_neg hskip]
    refine ⟨orphan_same _ _, fun g => (flag_orphan g pgp _).trans (or_congr_right ?_)⟩
    have hholds : (∃ m ∈ (t.group pgp).pglink, ((s.proc m).pParent ≠ some p && !zombie t m &&
        pglinked t m) = true) ↔
        ∃ m ∈ (s.group pgp).pglink, (s.proc m).pParent ≠ some p ∧ zombie s m = false ∧
          pglinked s m = true := by
      rw [ht.pglink]
      refine exists_congr fun m => and_congr_right fun _ => ?_
      rw [ht.zombie, ht.linked]
      simp only [ne_eq, decide_not, Bool.and_eq_true, Bool.not_eq_true',
        decide_eq_false_iff_not, and_assoc]
    simp only [one_ne_zero, if_false]
    rw [hholds]
    constructor
    · rintro ⟨rfl, hno⟩
      exact ⟨rfl, fun hmy => hskip (.inr hmy), hno⟩
    · rintro ⟨hg, -, hno⟩
      obtain rfl := Option.some.inj hg
      exact ⟨rfl, hno⟩

/-! ### Leaving and joining a group -/

def out (s : Sys Ptr) (p : Ptr) (g : Pid) : Sys Ptr :=
  setProc (setGroup s g { s.group g with pglink := (s.group g).pglink.erase p }) p
    { s.proc p with pPgidp := none }

def joined (s : Sys Ptr) (p : Ptr) (g : Pid) : Sys Ptr :=
  setProc (setGroup s g { s.group g with pglink := p :: (s.group g).pglink }) p
    { s.proc p with pPgidp := some g }

theorem flag_out (i : Pid) : ((out s p g).group i).pgorphaned = (s.group i).pgorphaned := by
  by_cases hi : i = g
  · simp [out, setProc, setGroup, hi]
  · simp [out, setProc, setGroup, hi]

theorem flag_joined (i : Pid) : ((joined s p g).group i).pgorphaned = (s.group i).pgorphaned := by
  by_cases hi : i = g
  · simp [joined, setProc, setGroup, hi]
  · simp [joined, setProc, setGroup, hi]

theorem pglink_out (i : Pid) : ((out s p g).group i).pglink =
    if i = g then (s.group g).pglink.erase p else (s.group i).pglink := by
  by_cases hi : i = g
  · simp [out, setProc, setGroup, hi]
  · simp [out, setProc, setGroup, hi]

theorem pglink_joined (i : Pid) : ((joined s p g).group i).pglink =
    if i = g then p :: (s.group g).pglink else (s.group i).pglink := by
  by_cases hi : i = g
  · simp [joined, setProc, setGroup, hi]
  · simp [joined, setProc, setGroup, hi]

theorem pgexit_spec (hg : (s.proc p).pPgidp = some g) :
    SameBut (out s p g) (pgexit s p) ∧ ∀ i, ((pgexit s p).group i).pgorphaned = true ↔
      (s.group i).pgorphaned = true ∨
        (i = g ∧ (s.group g).pglink.erase p ≠ [] ∧ ¬ Anchored (out s p g) g) := by
  have hlist : ((out s p g).group g).pglink = (s.group g).pglink.erase p := by
    rw [pglink_out, if_pos rfl]
  have heq : pgexit s p = if ((out s p g).group g).pglink = [] then out s p g
      else if ((out s p g).group g).pgorphaned then out s p g
      else orphan (out s p g) g fun m => !zombie (out s p g) m && pglinked (out s p g) m := by
    rw [pgexit, hg]
    rfl
  have hiff : (∃ m ∈ ((out s p g).group g).pglink, (!zombie (out s p g) m &&
      pglinked (out s p g) m) = true) ↔ Anchored (out s p g) g := by
    simp only [Bool.and_eq_true, Bool.not_eq_true', Anchored]
  rw [heq]
  split_ifs with hempty hflag
  · rw [hlist] at hempty
    refine ⟨SameBut.refl _, fun i => ?_⟩
    rw [flag_out]
    exact ⟨.inl, fun h => h.resolve_right fun hno => hno.2.1 hempty⟩
  · refine ⟨SameBut.refl _, fun i => ?_⟩
    rw [flag_out] at hflag ⊢
    exact ⟨.inl, fun h => h.elim id fun hi => by rw [hi.1]; exact hflag⟩
  · refine ⟨orphan_same _ _, fun i => (flag_orphan i g _).trans ?_⟩
    rw [hlist] at hempty
    rw [hiff, flag_out]
    exact or_congr_right (and_congr_right fun _ => ⟨fun h => ⟨hempty, h⟩, fun h => h.2⟩)

theorem pgjoin_spec (s : Sys Ptr) (p : Ptr) (g : Pid) :
    SameBut (joined s p g) (pgjoin s p g) ∧ ∀ i, ((pgjoin s p g).group i).pgorphaned = true ↔
      if i = g then
        (s.group g).pglink = [] ∧ pglinked (joined s p g) p = false ∨
          (s.group g).pglink ≠ [] ∧ (s.group g).pgorphaned = true ∧ pglinked (joined s p g) p = false
      else (s.group i).pgorphaned = true := by
  have heq : pgjoin s p g = if (s.group g).pglink = [] then
      setOrphaned (joined s p g) g (!pglinked (joined s p g) p)
    else if ((joined s p g).group g).pgorphaned ∧ pglinked (joined s p g) p then
      setOrphaned (joined s p g) g false
    else joined s p g := rfl
  rw [heq]
  split_ifs with hempty hset
  · refine ⟨setOrphaned_same _ _, fun i => ?_⟩
    rw [flag_setOrphaned, flag_joined]
    split_ifs with hi
    · simp [hempty]
    · exact .rfl
  · refine ⟨setOrphaned_same _ _, fun i => ?_⟩
    rw [flag_joined] at hset
    rw [flag_setOrphaned, flag_joined]
    split_ifs with hi
    · simp [hempty, hset.2]
    · exact .rfl
  · refine ⟨SameBut.refl _, fun i => ?_⟩
    rw [flag_joined] at hset ⊢
    split_ifs with hi
    · subst hi
      rw [not_and, Bool.not_eq_true] at hset
      refine ⟨fun h => .inr ⟨hempty, h, hset h⟩, fun h => ?_⟩
      exact h.elim (fun hno => absurd hno.1 hempty) fun h => h.2.1
    · exact .rfl

end Svr42.Pgrp
