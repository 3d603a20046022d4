import Svr42.PgrpChange

/-! Processes that begin, exit and are freed, and the flags of the groups then. -/

namespace Svr42.Pgrp
open Function List Option

variable {Ptr : Type} {s t v : Sys Ptr} {p q m procInit : Ptr} {G g : Pid}

/-- `p` is a zombie, and its children are those of `init`. -/
structure Exited [DecidableEq Ptr] (s t : Sys Ptr) (procInit p : Ptr) : Prop where
  same : ∀ m, (t.proc m).pPidp = (s.proc m).pPidp ∧ (t.proc m).pPgidp = (s.proc m).pPgidp ∧
    (t.proc m).pSessp = (s.proc m).pSessp
  dead : ∀ m, (t.proc m).pStat = if m = p then .szomb else (s.proc m).pStat
  parent : ∀ m, (t.proc m).pParent =
    if m ∈ (s.proc p).pChild then some procInit else (s.proc m).pParent
  child : ∀ m, (t.proc m).pChild = if m = p then []
    else if m = procInit then (s.proc p).pChild ++ (s.proc procInit).pChild else (s.proc m).pChild
  pglink : ∀ g, (t.group g).pglink = (s.group g).pglink

/-- The process can exit, and `init` is there for its children. -/
structure Exits (s : Sys Ptr) (procInit p : Ptr) : Prop where
  here : (s.proc p).pPgidp ≠ none
  live : zombie s p = false
  other : p ≠ procInit
  notChild : procInit ∉ (s.proc p).pChild
  initHere : (s.proc procInit).pPgidp ≠ none
  initLive : zombie s procInit = false

def ToInit (s : Sys Ptr) (procInit p : Ptr) (g : Pid) : Prop :=
  ∃ m ∈ (s.group g).pglink, (s.proc m).pParent = some p ∧ zombie s m = false ∧
    (s.proc procInit).pPgidp ≠ some g ∧ (s.proc procInit).pSessp = (s.proc m).pSessp

/-- What `exit` does not look at does not matter. -/
structure ExitHeeds (s : Sys Ptr) (procInit p : Ptr) : Prop where
  /-- If there are children, the group of the process is looked at or needs not be. -/
  own : ∀ G, (s.proc p).pPgidp = some G → (s.proc p).pChild ≠ [] →
    (s.group G).pgorphaned = false → (∃ m ∈ (s.group G).pglink, m ≠ p ∧ zombie s m = false) →
      Stays s p G ∨ ∃ m ∈ (s.group G).pglink, (s.proc m).pParent = some p
  /-- A group is not linked to `init` only. -/
  toInit : ∀ g, ToInit s procInit p g → Stays s p g

theorem Exits.not_self (h : Exits s procInit p) (hs : Books s) : p ∉ (s.proc p).pChild :=
  fun hm => (hs.parent p p h.here ((hs.child p p).mp hm).1).2.2 rfl

/-- The slot and the id can be given to a child of `pp`. -/
structure Forks (s : Sys Ptr) (pp cp : Ptr) (pid : Pid) : Prop where
  here : (s.proc pp).pPgidp ≠ none
  live : zombie s pp = false
  free : (s.proc cp).pPgidp = none
  unused : ∀ m, (s.proc m).pPgidp ≠ none → (s.proc m).pPidp ≠ pid
  empty : (s.group pid).pglink = []

theorem Forks.ne (h : Forks s q m g) : q ≠ m := fun heq => h.here (heq ▸ h.free)

/-- The child is in the group of its parent. -/
structure Forked (s t : Sys Ptr) (pp cp : Ptr) (pid G : Pid) : Prop where
  born : t.proc cp = ⟨.sidl, 0, pid, some G, (s.proc pp).pSessp, some pp, [], false⟩
  parent : t.proc pp = { s.proc pp with pChild := cp :: (s.proc pp).pChild }
  other : ∀ m, m ≠ cp → m ≠ pp → t.proc m = s.proc m
  pglink : ∀ g, (t.group g).pglink =
    if g = G then cp :: (s.group G).pglink else (s.group g).pglink
  pgorphaned : ∀ g, g ≠ pid → (t.group g).pgorphaned = (s.group g).pgorphaned

variable {pp cp : Ptr} {pid : Pid}

theorem Forked.mem (h : Forked s t pp cp pid G) (m : Ptr) (g : Pid) :
    m ∈ (t.group g).pglink ↔ (m = cp ∧ g = G) ∨ m ∈ (s.group g).pglink := by
  rw [h.pglink]
  split_ifs with hg
  · rw [hg, mem_cons, and_iff_left rfl]
  · exact (or_iff_right fun hno => hg hno.2).symm

theorem Forks.not_mem (h : Forks s pp cp pid) (hs : Books s) (g : Pid) :
    cp ∉ (s.group g).pglink := fun hm =>
  absurd ((hs.mem_pgidp hm).symm.trans h.free) (some_ne_none g)

theorem Forks.childless (h : Forks s pp cp pid) (hs : Books s) (hm : (s.proc m).pPgidp ≠ none) :
    (s.proc m).pParent ≠ some cp :=
  fun hparent => (hs.parent m cp hm hparent).1 h.free

variable [DecidableEq Ptr]

theorem Exited.zombie (h : Exited s t procInit p) (m : Ptr) :
    zombie t m = false ↔ m ≠ p ∧ zombie s m = false := by
  rw [zombie_eq_false, zombie_eq_false, h.dead]
  split_ifs with hm
  · exact iff_of_false (fun hno => hno rfl) fun hno => hno.1 hm
  · exact (and_iff_right hm).symm

section

variable (h : Exited s t procInit p) (hp : Exits s procInit p) (hs : Books s)
include h hp hs

theorem Exited.books : Books t where
  member m g := by rw [h.pglink, (h.same m).2.1, hs.member]
  nodup g := by
    rw [h.pglink]
    exact hs.nodup g
  child q c := by
    rw [h.child, h.parent, (h.same c).2.1]
    by_cases hc : c ∈ (s.proc p).pChild
    · have hparent := (hs.child p c).mp hc
      have hnot : ∀ r, r ≠ p → c ∉ (s.proc r).pChild := fun r hr hno =>
        hr (some.inj (((hs.child r c).mp hno).1.symm.trans hparent.1))
      rw [if_pos hc]
      split_ifs with hqp hqi
      · subst hqp
        simp [hp.other.symm]
      · subst hqi
        simp [hc, hparent.2]
      · simp [hnot q hqp, Ne.symm hqi]
    · rw [if_neg hc, ← hs.child]
      split_ifs with hqp hqi
      · subst hqp
        simp [hc]
      · subst hqi
        simp [hc]
      · exact .rfl
  childNodup q := by
    rw [h.child]
    split_ifs with hqp hqi
    · exact nodup_nil
    · refine (hs.childNodup p).append (hs.childNodup procInit) fun c hc hno => hp.other ?_
      exact some.inj (((hs.child p c).mp hc).1.symm.trans ((hs.child procInit c).mp hno).1)
    · exact hs.childNodup q
  pid q r := by
    rw [(h.same q).2.1, (h.same r).2.1, (h.same q).1, (h.same r).1]
    exact hs.pid q r
  parent c q hc hq := by
    rw [(h.same c).2.1] at hc
    rw [h.parent] at hq
    rw [(h.same q).2.1, h.dead]
    split_ifs at hq with hm
    · obtain rfl := some.inj hq
      rw [if_neg hp.other.symm]
      exact ⟨hp.initHere, zombie_eq_false.mp hp.initLive, fun heq => hp.notChild (heq ▸ hm)⟩
    · have hqp : q ≠ p := fun heq => hm ((hs.child p c).mpr ⟨heq ▸ hq, hc⟩)
      rw [if_neg hqp]
      exact hs.parent c q hc hq

/-- What anchors a group when the process has gone. -/
theorem Exited.anchored : Anchored t g ↔ Stays s p g ∨ ToInit s procInit p g := by
  have hother : ∀ m ∈ (s.group g).pglink, (s.proc m).pParent ≠ some p → pglinked t m = pglinked s m := by
    intro m hm hparent
    have hnot : m ∉ (s.proc p).pChild := fun hc => hparent ((hs.child p m).mp hc).1
    refine pglinked_congr (by rw [h.parent, if_neg hnot]) (h.same m).2 fun q _ => (h.same q).2
  have hgiven : ∀ m ∈ (s.group g).pglink, (s.proc m).pParent = some p →
      (pglinked t m = true ↔ (s.proc procInit).pPgidp ≠ some g ∧
        (s.proc procInit).pSessp = (s.proc m).pSessp) := by
    intro m hm hparent
    have hc := hs.child_of_member hm hparent
    have hinit : (t.proc m).pParent = some procInit := by rw [h.parent, if_pos hc]
    rw [pglinked_of_parent hinit, (h.same procInit).2.1, (h.same procInit).2.2, (h.same m).2.1,
      (h.same m).2.2, hs.mem_pgidp hm, decide_eq_true_eq]
  constructor
  · rintro ⟨m, hm, hz, hl⟩
    rw [h.pglink] at hm
    obtain ⟨hmp, hz⟩ := (h.zombie m).mp hz
    by_cases hparent : (s.proc m).pParent = some p
    · obtain ⟨hgroup, hsess⟩ := (hgiven m hm hparent).mp hl
      exact .inr ⟨m, hm, hparent, hz, hgroup, hsess⟩
    · exact .inl ⟨m, hm, hmp, hparent, hz, (hother m hm hparent) ▸ hl⟩
  · rintro (⟨m, hm, hmp, hparent, hz, hl⟩ | ⟨m, hm, hparent, hz, hgroup, hsess⟩)
    · exact ⟨m, (h.pglink g).symm ▸ hm, (h.zombie m).mpr ⟨hmp, hz⟩, (hother m hm hparent).trans hl⟩
    · have hmp : m ≠ p := fun heq => by
        rw [heq] at hm hparent
        exact hp.not_self hs (hs.child_of_member hm hparent)
      exact ⟨m, (h.pglink g).symm ▸ hm, (h.zombie m).mpr ⟨hmp, hz⟩,
        (hgiven m hm hparent).mpr ⟨hgroup, hsess⟩⟩

end

theorem reparent_proc (procInit : Ptr) (cs : List Ptr) (t : Sys Ptr) (m : Ptr) :
    (cs.foldl (fun s q => setProc s q { s.proc q with pParent := some procInit }) t).proc m =
      if m ∈ cs then { t.proc m with pParent := some procInit } else t.proc m := by
  induction cs generalizing t with
  | nil => rfl
  | cons c cs ih =>
    rw [foldl_cons, ih]
    by_cases hmc : m = c
    · subst hmc
      simp [setProc]
    · simp [setProc, hmc]

theorem reparent_group (procInit : Ptr) (cs : List Ptr) (t : Sys Ptr) :
    (cs.foldl (fun s q => setProc s q { s.proc q with pParent := some procInit }) t).group =
      t.group := by
  induction cs generalizing t with
  | nil => rfl
  | cons c cs ih => rw [foldl_cons, ih, setProc]

def die (s : Sys Ptr) (p : Ptr) : Sys Ptr := setProc s p { s.proc p with pStat := .szomb }

theorem giveChildren_proc (hp : p ≠ procInit) (hself : p ∉ (t.proc p).pChild)
    (hinit : procInit ∉ (t.proc p).pChild) (m : Ptr) : (die (giveChildren procInit p t) p).proc m =
      ⟨if m = p then .szomb else (t.proc m).pStat, (t.proc m).pWhystop, (t.proc m).pPidp,
        (t.proc m).pPgidp, (t.proc m).pSessp,
        if m ∈ (t.proc p).pChild then some procInit else (t.proc m).pParent,
        if m = p then []
        else if m = procInit then (t.proc p).pChild ++ (t.proc procInit).pChild
        else (t.proc m).pChild,
        (t.proc m).sexeced⟩ := by
  have hfold := reparent_proc procInit (t.proc p).pChild t
  unfold die giveChildren
  dsimp only
  generalize List.foldl _ t (t.proc p).pChild = f at hfold ⊢
  by_cases hmp : m = p
  · subst hmp
    simp [setProc, update_of_ne hp, hfold, hself]
  by_cases hmi : m = procInit
  · subst hmi
    simp [setProc, hmp, hfold, hinit]
  simp only [setProc, update_of_ne hmp, update_of_ne hmi, hfold]
  split_ifs with hc
  · rfl
  · rfl

theorem exited_give (h : Exits s procInit p) (hs : Books s) (ht : SameBut s t) :
    Exited s (die (giveChildren procInit p t) p) procInit p := by
  have hproc : ∀ m, (die (giveChildren procInit p t) p).proc m = _ := fun m => by
    refine giveChildren_proc h.other ?_ ?_ m
    · rw [ht.proc]
      exact h.not_self hs
    · rw [ht.proc]
      exact h.notChild
  refine ⟨fun m => ?_, fun m => ?_, fun m => ?_, fun m => ?_, fun g => ?_⟩
  · rw [hproc, ht.proc]
    exact ⟨rfl, rfl, rfl⟩
  · rw [hproc, ht.proc]
  · rw [hproc, ht.proc]
  · rw [hproc, ht.proc]
  · rw [← ht.pglink g]
    exact congrArg (fun group => (group g).pglink) (reparent_group procInit _ t)

theorem exited_die (hchild : (s.proc p).pChild = []) (ht : SameBut s t) :
    Exited s (die t p) procInit p := by
  have hproc : ∀ m, m ≠ p → (die t p).proc m = s.proc m := fun m hm => by
    rw [← ht.proc]
    exact update_of_ne hm _ _
  have hself : (die t p).proc p = { s.proc p with pStat := .szomb } := by
    rw [← ht.proc]
    exact update_self _ _ _
  refine ⟨fun m => ?_, fun m => ?_, fun m => ?_, fun m => ?_, ht.pglink⟩
  all_goals by_cases hm : m = p
  · rw [hm, hself]
    exact ⟨rfl, rfl, rfl⟩
  · rw [hproc m hm]
    exact ⟨rfl, rfl, rfl⟩
  · rw [hm, hself, if_pos rfl]
  · rw [hproc m hm, if_neg hm]
  · rw [hm, hself, hchild, if_neg not_mem_nil]
  · rw [hproc m hm, hchild, if_neg not_mem_nil]
  · rw [hm, hself, hchild, if_pos rfl]
  · rw [hproc m hm, if_neg hm, hchild, nil_append]
    split_ifs with hmi
    · rw [hmi]
    · rfl

theorem group_die (t : Sys Ptr) (p : Ptr) : (die t p).group = t.group := rfl

theorem group_give (t : Sys Ptr) : (giveChildren procInit p t).group = t.group :=
  reparent_group procInit _ t

theorem pgorphan_zero (s : Sys Ptr) (p : Ptr) (G : Pid) :
    SameBut s (pgorphan s G p 0) ∧ ∀ g, ((pgorphan s G p 0).group g).pgorphaned = true ↔
      (s.group g).pgorphaned = true ∨ (g = G ∧ ¬ ∃ m ∈ (s.group G).pglink, p ≠ m ∧
        zombie s m = false ∧ pglinked s m = true) := by
  refine ⟨orphan_same G _, fun g => (flag_orphan g G _).trans ?_⟩
  simp only [if_true, decide_not, Bool.and_eq_true, Bool.not_eq_true', decide_eq_false_iff_not,
    and_assoc, ne_eq]

theorem exit_eq_children (hchild : (s.proc p).pChild ≠ []) :
    exit procInit s p = die (giveChildren procInit p (pgdetach s p)) p := by
  unfold exit
  rw [if_pos hchild]
  rfl

theorem exit_eq_none (hchild : (s.proc p).pChild = []) (hG : (s.proc p).pPgidp = some G) :
    exit procInit s p = die (if (s.group G).pgorphaned = false ∧ (s.group G).pglink.length ≠ 1
      then pgorphan s G p 0 else s) p := by
  unfold exit
  rw [if_neg (not_not_intro hchild), hG]
  rfl

section

variable (h : Exits s procInit p) (hs : Books s)
include h hs

theorem exited_exit : Exited s (exit procInit s p) procInit p := by
  by_cases hchild : (s.proc p).pChild = []
  · obtain ⟨G, hG⟩ := ne_none_iff_exists'.mp h.here
    rw [exit_eq_none hchild hG]
    refine exited_die hchild ?_
    split_ifs
    · exact (pgorphan_zero s p G).1
    · exact SameBut.refl s
  · rw [exit_eq_children hchild]
    exact exited_give h hs (pgdetach_spec s p).1

/-- Without children the flags are right again. -/
theorem exit_right_none (hright : AllRight s)
    (hchild : (s.proc p).pChild = []) : AllRight (exit procInit s p) := by
  obtain ⟨G, hG⟩ := ne_none_iff_exists'.mp h.here
  have hexited := exited_exit h hs
  have hnoChild : ∀ g, ∀ m ∈ (s.group g).pglink, (s.proc m).pParent ≠ some p := by
    intro g m hm hparent
    exact ne_nil_of_mem (hs.child_of_member hm hparent) hchild
  have hanch : ∀ g, Anchored (exit procInit s p) g ↔ Stays s p g := by
    intro g
    rw [hexited.anchored h hs]
    exact or_iff_left fun ⟨m, hm, hparent, _⟩ => hnoChild g m hm hparent
  intro g hlive
  rw [hanch]
  obtain ⟨m, hm, hz⟩ := hlive
  rw [hexited.pglink] at hm
  obtain ⟨hmp, hz⟩ := (hexited.zombie m).mp hz
  have hstays : Stays s p g ↔ ∃ m ∈ (s.group g).pglink, p ≠ m ∧ zombie s m = false ∧
      pglinked s m = true := by
    refine exists_congr fun m => and_congr_right fun hm => ?_
    rw [ne_comm, and_iff_right (hnoChild g m hm)]
  have hflag : ((exit procInit s p).group g).pgorphaned = true ↔
      (s.group g).pgorphaned = true ∨ (g = G ∧ ¬ Stays s p g) := by
    rw [exit_eq_none hchild hG, group_die]
    split_ifs with hlook
    · rw [(pgorphan_zero s p G).2]
      refine or_congr_right (and_congr_right fun hg => ?_)
      rw [hstays, hg]
    · refine ⟨.inl, fun hset => hset.elim id fun ⟨hg, _⟩ => ?_⟩
      subst hg
      by_contra hno
      refine hlook ⟨Bool.eq_false_iff.mpr hno, fun hlen => hmp ?_⟩
      obtain ⟨q, hq⟩ := length_eq_one_iff.mp hlen
      have hp : p ∈ (s.group g).pglink := (hs.member p g).mpr hG
      rw [hq, mem_singleton] at hm hp
      rw [hm, hp]
  rw [hflag]
  constructor
  · rintro (hset | ⟨-, hno⟩)
    · exact (hright g).not_stays hset p
    · exact hno
  · intro hno
    by_cases hg : g = G
    · exact .inr ⟨hg, hno⟩
    refine .inl ((hright g ⟨m, hm, hz⟩).mpr fun hanch => hno ?_)
    obtain ⟨m, hm, hz, hl⟩ := hanch
    refine ⟨m, hm, fun heq => hg ?_, hnoChild g m hm, hz, hl⟩
    rw [heq] at hm
    exact some.inj ((hs.mem_pgidp hm).symm.trans hG)

theorem exit_right (hright : AllRight s)
    (hheeds : ExitHeeds s procInit p) : AllRight (exit procInit s p) := by
  by_cases hchild : (s.proc p).pChild = []
  · exact exit_right_none h hs hright hchild
  have hexited := exited_exit h hs
  intro g hlive
  rw [hexited.anchored h hs]
  obtain ⟨m, hm, hz⟩ := hlive
  rw [hexited.pglink] at hm
  obtain ⟨hmp, hz⟩ := (hexited.zombie m).mp hz
  have hflag : ((exit procInit s p).group g).pgorphaned = true ↔
      (s.group g).pgorphaned = true ∨
        ((∃ cp ∈ (s.proc p).pChild, (s.proc cp).pPgidp = some g) ∧ True ∧ ¬ Stays s p g) := by
    rw [exit_eq_children hchild, group_die, group_give, (pgdetach_spec s p).2]
  rw [hflag, or_iff_left_of_imp (hheeds.toInit g)]
  constructor
  · rintro (hset | ⟨-, -, hno⟩)
    · exact (hright g).not_stays hset p
    · exact hno
  · intro hno
    cases hset : (s.group g).pgorphaned with
    | true => exact .inl rfl
    | false =>
      refine .inr ⟨?_, trivial, hno⟩
      have hanch : Anchored s g := by
        by_contra hanch
        exact absurd (hset.symm.trans ((hright g ⟨m, hm, hz⟩).mpr hanch)) (by decide)
      have hchildIn : (∃ m ∈ (s.group g).pglink, (s.proc m).pParent = some p) →
          ∃ cp ∈ (s.proc p).pChild, (s.proc cp).pPgidp = some g := fun ⟨c, hc, hparent⟩ =>
        ⟨c, hs.child_of_member hc hparent, hs.mem_pgidp hc⟩
      apply hchildIn
      obtain ⟨a, ha, haz, hl⟩ := hanch
      by_cases hparent : (s.proc a).pParent = some p
      · exact ⟨a, ha, hparent⟩
      by_cases hap : a = p
      · -- only the process itself anchored its group
        rw [hap] at ha
        exact (hheeds.own g (hs.mem_pgidp ha) hchild hset ⟨m, hm, hmp, hz⟩).resolve_left hno
      · exact absurd ⟨a, ha, hap, hparent, haz, hl⟩ hno

end

/-! ### A zombie is freed -/

/-- The zombie is no longer there. -/
structure Freed (s t : Sys Ptr) (z : Ptr) (G : Pid) : Prop where
  same : ∀ m, (t.proc m).pStat = (s.proc m).pStat ∧ (t.proc m).pPidp = (s.proc m).pPidp ∧
    (t.proc m).pSessp = (s.proc m).pSessp ∧ (t.proc m).pParent = (s.proc m).pParent
  pPgidp : ∀ m, (t.proc m).pPgidp = if m = z then none else (s.proc m).pPgidp
  child : ∀ m, (t.proc m).pChild =
    if (s.proc z).pParent = some m then (s.proc m).pChild.erase z else (s.proc m).pChild
  pglink : ∀ g, (t.group g).pglink =
    if g = G then (s.group G).pglink.erase z else (s.group g).pglink

/-- What `freeproc` takes out of the list of the parent. -/
def unlink (s : Sys Ptr) (p : Ptr) : Sys Ptr :=
  match (s.proc p).pParent with
  | none => s
  | some pp => setProc s pp { s.proc pp with pChild := (s.proc pp).pChild.erase p }

theorem freeproc_eq (s : Sys Ptr) (p : Ptr) : freeproc s p = pgexit (unlink s p) p := rfl

theorem unlink_proc (s : Sys Ptr) (p m : Ptr) : (unlink s p).proc m = { s.proc m with
      pChild := if (s.proc p).pParent = some m then (s.proc m).pChild.erase p
        else (s.proc m).pChild } := by
  unfold unlink
  cases hq : (s.proc p).pParent with
  | none => rfl
  | some q =>
    by_cases hm : m = q
    · subst hm
      simp [setProc]
    · have hne : ¬ some q = some m := fun h => hm (some.inj h).symm
      rw [if_neg hne]
      exact update_of_ne hm _ _

theorem unlink_group (s : Sys Ptr) (p : Ptr) : (unlink s p).group = s.group := by
  unfold unlink
  cases (s.proc p).pParent with
  | none => rfl
  | some q => rfl

theorem freed_out (s : Sys Ptr) (p : Ptr) (G : Pid) : Freed s (out (unlink s p) p G) p G := by
  have haway := away_out (unlink s p) p G
  have hproc : ∀ m, (out (unlink s p) p G).proc m = { (unlink s p).proc m with
      pPgidp := if m = p then none else (s.proc m).pPgidp } := by
    intro m
    by_cases hm : m = p
    · subst hm
      rw [haway.self, if_pos rfl]
    · rw [haway.other m hm, if_neg hm, unlink_proc]
  refine ⟨fun m => ?_, fun m => ?_, fun m => ?_, fun g => ?_⟩
  · rw [hproc, unlink_proc]
    exact ⟨rfl, rfl, rfl, rfl⟩
  · rw [hproc]
  · rw [hproc, unlink_proc]
  · rw [haway.pglink, unlink_group]

theorem Freed.sameBut {u : Sys Ptr} (h : Freed s t p G) (hu : SameBut t u) : Freed s u p G where
  same m := by rw [hu.proc]; exact h.same m
  pPgidp m := by rw [hu.proc]; exact h.pPgidp m
  child m := by rw [hu.proc]; exact h.child m
  pglink g := by rw [hu.pglink]; exact h.pglink g

section

variable (h : Freed s t p G) (hs : Books s) (hG : (s.proc p).pPgidp = some G)
include h hs hG

theorem Freed.mem (m : Ptr) (g : Pid) : m ∈ (t.group g).pglink ↔ m ≠ p ∧ m ∈ (s.group g).pglink := by
  rw [h.pglink]
  split_ifs with hg
  · rw [hg, (hs.nodup G).mem_erase_iff]
  · refine (and_iff_right_of_imp fun hm heq => hg ?_).symm
    rw [heq] at hm
    exact some.inj ((hs.mem_pgidp hm).symm.trans hG)

theorem Freed.books (hz : (s.proc p).pStat = .szomb) : Books t where
  member m g := by
    rw [h.mem hs hG, h.pPgidp, hs.member]
    split_ifs with hm
    · simp [hm]
    · simp [hm]
  nodup g := by
    rw [h.pglink]
    split_ifs
    · exact (hs.nodup G).erase p
    · exact hs.nodup g
  child q c := by
    rw [h.child, h.pPgidp, (h.same c).2.2.2]
    by_cases hc : c = p
    · subst hc
      rw [if_pos rfl]
      refine iff_of_false ?_ fun hno => hno.2 rfl
      split_ifs with hq
      · exact (hs.childNodup q).not_mem_erase
      · exact fun hm => hq ((hs.child q c).mp hm).1
    · rw [if_neg hc]
      split_ifs with hq
      · rw [mem_erase_of_ne hc, hs.child]
      · exact hs.child q c
  childNodup q := by
    rw [h.child]
    split_ifs
    · exact (hs.childNodup q).erase p
    · exact hs.childNodup q
  pid q r hq hr heq := by
    rw [h.pPgidp] at hq hr
    rw [(h.same q).2.1, (h.same r).2.1] at heq
    split_ifs at hq hr
    · exact absurd rfl hq
    · exact absurd rfl hq
    · exact absurd rfl hr
    · exact hs.pid q r hq hr heq
  parent c q hc hq := by
    rw [h.pPgidp] at hc
    rw [(h.same c).2.2.2] at hq
    split_ifs at hc
    · exact absurd rfl hc
    · obtain ⟨hhere, hlive, hne⟩ := hs.parent c q hc hq
      have hqp : q ≠ p := fun heq => hlive (heq ▸ hz)
      rw [h.pPgidp, if_neg hqp, (h.same q).1]
      exact ⟨hhere, hlive, hne⟩

theorem Freed.anchored (hz : (s.proc p).pStat = .szomb) : Anchored t g ↔ Anchored s g := by
  have hlinked : ∀ m ∈ (s.group g).pglink, m ≠ p → pglinked t m = pglinked s m := by
    intro m hm hmp
    have hhere : (s.proc m).pPgidp ≠ none := by
      rw [hs.mem_pgidp hm]
      exact some_ne_none g
    refine pglinked_congr (h.same m).2.2.2 ⟨by rw [h.pPgidp, if_neg hmp], (h.same m).2.2.1⟩
      fun q hq => ⟨?_, (h.same q).2.2.1⟩
    have hqp : q ≠ p := fun heq => (hs.parent m q hhere hq).2.1 (heq ▸ hz)
    rw [h.pPgidp, if_neg hqp]
  have hzombie : ∀ m, zombie t m = zombie s m := fun m => by rw [zombie, zombie, (h.same m).1]
  constructor
  · rintro ⟨m, hm, hmz, hl⟩
    obtain ⟨hmp, hin⟩ := (h.mem hs hG m g).mp hm
    exact ⟨m, hin, hzombie m ▸ hmz, (hlinked m hin hmp) ▸ hl⟩
  · rintro ⟨m, hin, hmz, hl⟩
    have hmp : m ≠ p := fun heq => zombie_eq_false.mp hmz (heq ▸ hz)
    exact ⟨m, (h.mem hs hG m g).mpr ⟨hmp, hin⟩, (hzombie m).trans hmz, (hlinked m hin hmp).trans hl⟩

end

theorem freed_freeproc (hG : (s.proc p).pPgidp = some G) :
    Freed s (freeproc s p) p G ∧ ∀ g, ((freeproc s p).group g).pgorphaned = true ↔
      (s.group g).pgorphaned = true ∨
        (g = G ∧ (s.group G).pglink.erase p ≠ [] ∧ ¬ Anchored (out (unlink s p) p G) G) := by
  have hG' : ((unlink s p).proc p).pPgidp = some G := by rw [unlink_proc, ← hG]
  obtain ⟨hsame, hflag⟩ := pgexit_spec hG'
  rw [unlink_group, ← freeproc_eq] at hflag
  exact ⟨(freed_out s p G).sameBut hsame, hflag⟩

theorem freeproc_right (hs : Books s) (hright : AllRight s) (hG : (s.proc p).pPgidp = some G)
    (hz : (s.proc p).pStat = .szomb) : AllRight (freeproc s p) := by
  obtain ⟨hfreed, hflag⟩ := freed_freeproc (s := s) hG
  intro g hlive
  have hlive' : ∃ m ∈ (s.group g).pglink, zombie s m = false := by
    obtain ⟨m, hm, hmz⟩ := hlive
    rw [zombie, (hfreed.same m).1] at hmz
    exact ⟨m, ((hfreed.mem hs hG m g).mp hm).2, hmz⟩
  rw [hflag, hfreed.anchored hs hG hz, (freed_out s p G).anchored hs hG hz, hright g hlive']
  refine or_iff_left_of_imp ?_
  rintro ⟨rfl, -, hno⟩
  exact hno

/-! ### A process begins -/

def born (s : Sys Ptr) (pp cp : Ptr) (pid : Pid) : Sys Ptr :=
  let s := setGroup s pid ⟨false, []⟩
  setProc s cp ⟨.sidl, 0, pid, none, (s.proc pp).pSessp, none, [], false⟩

def adopted (s : Sys Ptr) (pp cp : Ptr) : Sys Ptr :=
  let s := setProc s cp { s.proc cp with pParent := some pp }
  setProc s pp { s.proc pp with pChild := cp :: (s.proc pp).pChild }

theorem fork_eq (h : ((born s pp cp pid).proc pp).pPgidp = some G) :
    fork s pp cp pid = adopted (pgjoin (born s pp cp pid) cp G) pp cp := by
  unfold fork
  unfold born at h ⊢
  dsimp only at h ⊢
  rw [h]
  rfl

theorem adopted_proc (hne : pp ≠ cp) :
    (adopted s pp cp).proc cp = { s.proc cp with pParent := some pp } ∧
      (adopted s pp cp).proc pp = { s.proc pp with pChild := cp :: (s.proc pp).pChild } ∧
      ∀ m, m ≠ cp → m ≠ pp → (adopted s pp cp).proc m = s.proc m := by
  unfold adopted setProc
  refine ⟨?_, ?_, fun m hcp hpp => ?_⟩
  · simp [update_of_ne hne.symm]
  · simp [update_of_ne hne]
  · simp [update_of_ne hpp, update_of_ne hcp]

theorem forked_fork (h : Forks s pp cp pid) (hs : Books s) (hG : (s.proc pp).pPgidp = some G) :
    Forked s (fork s pp cp pid) pp cp pid G := by
  have hne : pp ≠ cp := h.ne
  have hin : pp ∈ (s.group G).pglink := (hs.member pp G).mpr hG
  have hGpid : G ≠ pid := fun heq => by
    rw [heq, h.empty] at hin
    exact not_mem_nil hin
  have hproc : ∀ m, m ≠ cp → (born s pp cp pid).proc m = s.proc m := fun m hm => update_of_ne hm _ _
  have hborn : (born s pp cp pid).proc cp =
      ⟨.sidl, 0, pid, none, (s.proc pp).pSessp, none, [], false⟩ := update_self _ _ _
  have hgroup : ∀ g, g ≠ pid → (born s pp cp pid).group g = s.group g := fun g hg => update_of_ne hg _ _
  have hlist : ∀ g, ((born s pp cp pid).group g).pglink = (s.group g).pglink := by
    intro g
    by_cases hg : g = pid
    · rw [hg, h.empty]
      exact congrArg Group.pglink (update_self pid (⟨false, []⟩ : Group Ptr) s.group)
    · rw [hgroup g hg]
  obtain ⟨hjoin, hflag⟩ := pgjoin_spec (born s pp cp pid) cp G
  have hself : (joined (born s pp cp pid) cp G).proc cp =
      ⟨.sidl, 0, pid, some G, (s.proc pp).pSessp, none, [], false⟩ := by
    refine (update_self _ _ _).trans ?_
    rw [hborn]
  have hother : ∀ m, m ≠ cp → (joined (born s pp cp pid) cp G).proc m = s.proc m :=
    fun m hm => (update_of_ne hm _ _).trans (hproc m hm)
  have hlinked : pglinked (joined (born s pp cp pid) cp G) cp = false := pglinked_none (by rw [hself])
  rw [fork_eq (by rw [hproc pp hne, hG])]
  obtain ⟨hcp, hpp, hrest⟩ := adopted_proc (s := pgjoin (born s pp cp pid) cp G) hne
  refine ⟨?_, ?_, fun m hmc hmp => ?_, fun g => ?_, fun g hg => ?_⟩
  · rw [hcp, hjoin.proc, hself]
  · rw [hpp, hjoin.proc, hother pp hne]
  · rw [hrest m hmc hmp, hjoin.proc, hother m hmc]
  · calc ((adopted (pgjoin (born s pp cp pid) cp G) pp cp).group g).pglink
        = ((pgjoin (born s pp cp pid) cp G).group g).pglink := rfl
      _ = _ := hjoin.pglink g
      _ = _ := by rw [pglink_joined, hlist, hlist]
  · calc ((adopted (pgjoin (born s pp cp pid) cp G) pp cp).group g).pgorphaned
        = ((pgjoin (born s pp cp pid) cp G).group g).pgorphaned := rfl
      _ = (s.group g).pgorphaned := by
        rw [Bool.eq_iff_iff, hflag, hgroup g hg, hlist, hgroup G hGpid, hlinked]
        split_ifs with hgG
        · simp [hgG, ne_nil_of_mem hin]
        · exact .rfl

theorem Forked.fields (h : Forked s t pp cp pid G) (hm : m ≠ cp) :
    (t.proc m).pStat = (s.proc m).pStat ∧ (t.proc m).pPidp = (s.proc m).pPidp ∧
      (t.proc m).pPgidp = (s.proc m).pPgidp ∧ (t.proc m).pSessp = (s.proc m).pSessp ∧
      (t.proc m).pParent = (s.proc m).pParent := by
  by_cases hpp : m = pp
  · rw [hpp, h.parent]
    exact ⟨rfl, rfl, rfl, rfl, rfl⟩
  · rw [h.other m hm hpp]
    exact ⟨rfl, rfl, rfl, rfl, rfl⟩

section

variable (h : Forked s t pp cp pid G) (hf : Forks s pp cp pid) (hs : Books s)
include h hf hs

theorem Forked.books : Books t where
  member m g := by
    rw [h.mem]
    by_cases hm : m = cp
    · subst hm
      rw [h.born]
      simp [hf.not_mem hs g, eq_comm]
    · rw [(h.fields hm).2.2.1, hs.member]
      simp [hm]
  nodup g := by
    rw [h.pglink]
    split_ifs
    · exact nodup_cons.mpr ⟨hf.not_mem hs G, hs.nodup G⟩
    · exact hs.nodup g
  child q c := by
    have hchild : c ≠ cp → ((t.proc c).pParent = some q ∧ (t.proc c).pPgidp ≠ none ↔
        c ∈ (s.proc q).pChild) := fun hc => by
      rw [(h.fields hc).2.2.1, (h.fields hc).2.2.2.2, hs.child]
    have hnew : ∀ r, cp ∉ (s.proc r).pChild := fun r hm => ((hs.child r cp).mp hm).2 hf.free
    by_cases hc : c = cp
    · subst hc
      rw [h.born]
      by_cases hqc : q = c
      · subst hqc
        rw [h.born]
        simp [hf.ne]
      by_cases hqp : q = pp
      · subst hqp
        rw [h.parent]
        simp
      · rw [h.other q hqc hqp]
        simp [hnew q, Ne.symm hqp]
    · rw [hchild hc]
      by_cases hqc : q = cp
      · subst hqc
        rw [h.born]
        refine iff_of_false not_mem_nil fun hm => ?_
        obtain ⟨hparent, hhere⟩ := (hs.child q c).mp hm
        exact hf.childless hs hhere hparent
      · by_cases hqp : q = pp
        · subst hqp
          rw [h.parent]
          simp [hc]
        · rw [h.other q hqc hqp]
  childNodup q := by
    by_cases hqc : q = cp
    · rw [hqc, h.born]
      exact nodup_nil
    by_cases hqp : q = pp
    · rw [hqp, h.parent]
      exact nodup_cons.mpr ⟨fun hm => ((hs.child pp cp).mp hm).2 hf.free, hs.childNodup pp⟩
    · rw [h.other q hqc hqp]
      exact hs.childNodup q
  pid q r hq hr heq := by
    by_cases hqc : q = cp
    · by_cases hrc : r = cp
      · rw [hqc, hrc]
      · rw [hqc, h.born, (h.fields hrc).2.1] at heq
        rw [(h.fields hrc).2.2.1] at hr
        exact absurd heq.symm (hf.unused r hr)
    · rw [(h.fields hqc).2.2.1] at hq
      by_cases hrc : r = cp
      · rw [hrc, h.born, (h.fields hqc).2.1] at heq
        exact absurd heq (hf.unused q hq)
      · rw [(h.fields hrc).2.2.1] at hr
        rw [(h.fields hqc).2.1, (h.fields hrc).2.1] at heq
        exact hs.pid q r hq hr heq
  parent c q hc hq := by
    by_cases hcc : c = cp
    · subst hcc
      rw [h.born] at hq
      obtain rfl := some.inj hq
      rw [(h.fields hf.ne).2.2.1, (h.fields hf.ne).1]
      exact ⟨hf.here, zombie_eq_false.mp hf.live, hf.ne⟩
    · rw [(h.fields hcc).2.2.1] at hc
      rw [(h.fields hcc).2.2.2.2] at hq
      have hqc : q ≠ cp := fun heq => hf.childless hs hc (heq ▸ hq)
      rw [(h.fields hqc).2.2.1, (h.fields hqc).1]
      exact hs.parent c q hc hq

/-- The child is in the group of its parent, so it anchors nothing. -/
theorem Forked.anchored (hG : (s.proc pp).pPgidp = some G) : Anchored t g ↔ Anchored s g := by
  have hlinked : ∀ m ∈ (s.group g).pglink, pglinked t m = pglinked s m := by
    intro m hm
    have hmc : m ≠ cp := fun heq => hf.not_mem hs g (heq ▸ hm)
    have hhere : (s.proc m).pPgidp ≠ none := by
      rw [hs.mem_pgidp hm]
      exact some_ne_none g
    obtain ⟨-, -, hpgidp, hsessp, hparent⟩ := h.fields hmc
    refine pglinked_congr hparent ⟨hpgidp, hsessp⟩ fun q hq => ?_
    have hqc : q ≠ cp := fun heq => hf.childless hs hhere (heq ▸ hq)
    exact ⟨(h.fields hqc).2.2.1, (h.fields hqc).2.2.2.1⟩
  have hzombie : ∀ m ∈ (s.group g).pglink, zombie t m = zombie s m := fun m hm => by
    have hmc : m ≠ cp := fun heq => hf.not_mem hs g (heq ▸ hm)
    rw [zombie, zombie, (h.fields hmc).1]
  constructor
  · rintro ⟨m, hm, hz, hl⟩
    rcases (h.mem m g).mp hm with ⟨rfl, rfl⟩ | hin
    · have hparent : (t.proc m).pParent = some pp := by rw [h.born]
      rw [pglinked_of_parent hparent, h.born, (h.fields hf.ne).2.2.1, hG, decide_eq_true_eq] at hl
      exact absurd rfl hl.1
    · exact ⟨m, hin, hzombie m hin ▸ hz, (hlinked m hin) ▸ hl⟩
  · rintro ⟨m, hin, hz, hl⟩
    exact ⟨m, (h.mem m g).mpr (.inr hin), (hzombie m hin).trans hz, (hlinked m hin).trans hl⟩

end

theorem fork_right (hf : Forks s pp cp pid) (hs : Books s) (hright : AllRight s) :
    AllRight (fork s pp cp pid) := by
  obtain ⟨G, hG⟩ := ne_none_iff_exists'.mp hf.here
  have hforked := forked_fork hf hs hG
  have hin : pp ∈ (s.group G).pglink := (hs.member pp G).mpr hG
  intro g hlive
  have hlive' : ∃ m ∈ (s.group g).pglink, zombie s m = false := by
    obtain ⟨m, hm, hz⟩ := hlive
    rcases (hforked.mem m g).mp hm with ⟨-, hg⟩ | hm'
    · exact ⟨pp, hg ▸ hin, hf.live⟩
    · have hmc : m ≠ cp := fun heq => hf.not_mem hs g (heq ▸ hm')
      rw [zombie, (hforked.fields hmc).1] at hz
      exact ⟨m, hm', hz⟩
  have hpid : g ≠ pid := fun heq => by
    obtain ⟨m, hm, -⟩ := hlive'
    rw [heq, hf.empty] at hm
    exact not_mem_nil hm
  rw [hforked.pgorphaned g hpid, hforked.anchored hf hs hG]
  exact hright g hlive'

end Svr42.Pgrp
