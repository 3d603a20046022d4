import Svr42.MlockPages

/-! What `as_ctl` does to the pages of a range, or of all segments. -/

namespace Svr42.Mlock
open List
open Bitmap

variable {env : Env} {attr pos : Nat} {op : Op} {seg seg' : Seg} {segs segs' : List Seg}
  {map map' : Option Words}

/-! ### Lists of segments -/

def Laid (segs : List Seg) : Prop :=
  segs.Pairwise (fun a b => a.stop ≤ b.s_base) ∧
    ∀ seg ∈ segs, 0 < seg.s_pages ∧ seg.stop ≤ 0xc0000

def Mapped (segs : List Seg) (p : Nat) : Prop := ∃ seg ∈ segs, seg.Has p

def MatchesAt (segs : List Seg) (attr p : Nat) : Prop := ∃ seg ∈ segs, seg.Has p ∧ seg.Matches attr p

def LockedAt (segs : List Seg) (p : Nat) : Prop := ∃ seg ∈ segs, seg.Has p ∧ seg.Locked p

def NewAt (segs : List Seg) (attr p : Nat) : Prop := MatchesAt segs attr p ∧ ¬ LockedAt segs p

def layout (segs : List Seg) : List (Nat × Nat) := segs.map fun seg => (seg.s_base, seg.s_pages)

theorem Laid.tail (h : Laid (seg :: segs)) : Laid segs :=
  ⟨(pairwise_cons.mp h.1).2, fun seg' hmem => h.2 seg' (.tail seg hmem)⟩

variable {p : Nat}

theorem Laid.before (h : Laid (seg :: segs)) (hp : Mapped segs p) : seg.stop ≤ p := by
  obtain ⟨seg', hmem, hhas⟩ := hp
  exact le_trans ((pairwise_cons.mp h.1).1 seg' hmem) hhas.1

theorem mapped_cons : Mapped (seg :: segs) p ↔ seg.Has p ∨ Mapped segs p := by
  simp only [Mapped, exists_mem_cons_iff]

theorem Laid.unique (h : Laid segs) {seg₁ seg₂ : Seg} (h₁ : seg₁ ∈ segs) (h₂ : seg₂ ∈ segs)
    (hp₁ : seg₁.Has p) (hp₂ : seg₂.Has p) : seg₁ = seg₂ := by
  induction segs with
  | nil => cases h₁
  | cons seg segs ih =>
    have hlt₁ := hp₁.2
    have hlt₂ := hp₂.2
    rcases mem_cons.mp h₁ with heq₁ | hmem₁
    · rcases mem_cons.mp h₂ with heq₂ | hmem₂
      · rw [heq₁, heq₂]
      · have hbefore := h.before ⟨seg₂, hmem₂, hp₂⟩
        rw [heq₁] at hlt₁
        omega
    · rcases mem_cons.mp h₂ with heq₂ | hmem₂
      · have hbefore := h.before ⟨seg₁, hmem₁, hp₁⟩
        rw [heq₂] at hlt₂
        omega
      · exact ih h.tail hmem₁ hmem₂

theorem MatchesAt.mapped (h : MatchesAt segs attr p) : Mapped segs p := by
  obtain ⟨seg, hmem, hhas, _⟩ := h
  exact ⟨seg, hmem, hhas⟩

theorem LockedAt.mapped (h : LockedAt segs p) : Mapped segs p := by
  obtain ⟨seg, hmem, hhas, _⟩ := h
  exact ⟨seg, hmem, hhas⟩

theorem matchesAt_here (h : Laid (seg :: segs)) (hp : seg.Has p) :
    MatchesAt (seg :: segs) attr p ↔ seg.Matches attr p := by
  simp only [MatchesAt, exists_mem_cons_iff, hp, true_and]
  refine ⟨fun hm => hm.elim id fun ht => ?_, .inl⟩
  have hle := h.before (MatchesAt.mapped ht)
  have hlt := hp.2
  omega

theorem matchesAt_there (hp : ¬ seg.Has p) : MatchesAt (seg :: segs) attr p ↔ MatchesAt segs attr p := by
  simp only [MatchesAt, exists_mem_cons_iff, hp, false_and, false_or]

theorem lockedAt_here (h : Laid (seg :: segs)) (hp : seg.Has p) :
    LockedAt (seg :: segs) p ↔ seg.Locked p := by
  simp only [LockedAt, exists_mem_cons_iff, hp, true_and]
  refine ⟨fun hm => hm.elim id fun ht => ?_, .inl⟩
  have hle := h.before (LockedAt.mapped ht)
  have hlt := hp.2
  omega

theorem lockedAt_there (hp : ¬ seg.Has p) : LockedAt (seg :: segs) p ↔ LockedAt segs p := by
  simp only [LockedAt, exists_mem_cons_iff, hp, false_and, false_or]

/-- The pages from `lo` to `hi` are done. -/
structure ListDone (env : Env) (attr : Nat) (op : Op) (lo hi : Nat) (segs segs' : List Seg) :
    Prop where
  placed : layout segs' = layout segs
  same : ∀ p, MatchesAt segs' attr p ↔ MatchesAt segs attr p
  locks : ∀ p, LockedAt segs' p ↔
    Done op (LockedAt segs p) (lo ≤ p ∧ p < hi ∧ MatchesAt segs attr p)
  able : op = .lock → ∀ p, lo ≤ p → p < hi → NewAt segs attr p → ¬ Fails env p

theorem done_no {l h : Prop} (hno : ¬ h) : Done op l h ↔ l := by
  cases op with
  | lock => exact ⟨fun hd => hd.elim id fun hh => absurd hh hno, .inl⟩
  | unlock => exact ⟨fun hd => hd.1, fun hl => ⟨hl, hno⟩⟩

theorem ListDone.refl (env : Env) (attr : Nat) (op : Op) (lo : Nat) (segs : List Seg) :
    ListDone env attr op lo lo segs segs := by
  constructor
  · rfl
  · exact fun _ => .rfl
  · intro p
    rw [done_no]
    omega
  · intro _ p h1 h2
    omega

theorem SegDone.empty (env : Env) (attr : Nat) (op : Op) (a pos : Nat) (seg : Seg) (map : Option Words) :
    SegDone env attr op a a pos seg seg map map := by
  constructor
  · rfl
  · rfl
  · exact fun _ _ => .rfl
  · intro p _
    rw [done_no]
    omega
  · rfl
  · intro b
    refine ⟨.inl, fun hb => hb.elim id ?_⟩
    rintro ⟨_, _, p, h1, h2, _⟩
    omega
  · intro _ p h1 h2
    omega

theorem has_congr (hbase : seg'.s_base = seg.s_base) (hpages : seg'.s_pages = seg.s_pages) :
    seg'.Has p ↔ seg.Has p := by
  rw [Seg.Has, Seg.Has, Seg.stop, Seg.stop, hbase, hpages]

section

variable (hlay : layout segs' = layout segs)
include hlay

theorem layout_stop {seg₁ : Seg} (hmem : seg₁ ∈ segs') :
    ∃ seg₂ ∈ segs, seg₂.s_base = seg₁.s_base ∧ seg₂.s_pages = seg₁.s_pages := by
  have hin : (seg₁.s_base, seg₁.s_pages) ∈ layout segs := by
    rw [← hlay]
    exact mem_map_of_mem hmem
  obtain ⟨seg₂, hmem₂, heq⟩ := mem_map.mp hin
  rw [Prod.mk.injEq] at heq
  exact ⟨seg₂, hmem₂, heq⟩

theorem laid_congr (h : Laid segs) : Laid segs' := by
  have hpair : (layout segs).Pairwise fun a b => a.1 + a.2 ≤ b.1 := pairwise_map.mpr h.1
  rw [← hlay] at hpair
  refine ⟨pairwise_map.mp hpair, fun seg₁ hmem => ?_⟩
  obtain ⟨seg₂, hmem₂, hbase, hpages⟩ := layout_stop hlay hmem
  have hseg := h.2 seg₂ hmem₂
  rw [Seg.stop] at hseg ⊢
  rw [← hbase, ← hpages]
  exact hseg

theorem mapped_congr : Mapped segs' p ↔ Mapped segs p := by
  constructor
  · rintro ⟨seg₁, hmem, hhas⟩
    obtain ⟨seg₂, hmem₂, hbase, hpages⟩ := layout_stop hlay hmem
    exact ⟨seg₂, hmem₂, (has_congr hbase hpages).mpr hhas⟩
  · rintro ⟨seg₁, hmem, hhas⟩
    obtain ⟨seg₂, hmem₂, hbase, hpages⟩ := layout_stop hlay.symm hmem
    exact ⟨seg₂, hmem₂, (has_congr hbase hpages).mpr hhas⟩

end

/-- A segment, and those after it. -/
theorem ListDone.cons {lo hi a stop a' stop' : Nat} (hlaid : Laid (seg :: segs))
    (hseg : SegDone env attr op a stop pos seg seg' map map')
    (hsegs : ListDone env attr op a' stop' segs segs')
    (hhead : ∀ p, seg.Has p → (lo ≤ p ∧ p < hi ↔ a ≤ p ∧ p < stop))
    (htail : ∀ p, Mapped segs p → (lo ≤ p ∧ p < hi ↔ a' ≤ p ∧ p < stop')) :
    ListDone env attr op lo hi (seg :: segs) (seg' :: segs') := by
  have hlay : layout (seg' :: segs') = layout (seg :: segs) := by
    rw [layout, map_cons, ← layout, hseg.base, hseg.pages, hsegs.placed]
    rfl
  have hlaid' := laid_congr hlay hlaid
  constructor
  · exact hlay
  · intro p
    by_cases hp : seg.Has p
    · rw [matchesAt_here hlaid hp,
        matchesAt_here hlaid' ((has_congr hseg.base hseg.pages).mpr hp), hseg.same p hp.1]
    · rw [matchesAt_there hp,
        matchesAt_there fun hp' => hp ((has_congr hseg.base hseg.pages).mp hp'), hsegs.same]
  · intro p
    by_cases hp : seg.Has p
    · rw [lockedAt_here hlaid hp, matchesAt_here hlaid hp,
        lockedAt_here hlaid' ((has_congr hseg.base hseg.pages).mpr hp), hseg.locks p hp.1,
        ← and_assoc, ← and_assoc, hhead p hp]
    · rw [lockedAt_there hp, matchesAt_there hp,
        lockedAt_there fun hp' => hp ((has_congr hseg.base hseg.pages).mp hp'), hsegs.locks]
      by_cases hm : MatchesAt segs attr p
      · rw [← and_assoc, ← and_assoc, htail p hm.mapped]
      · rw [done_no fun h => hm h.2.2, done_no fun h => hm h.2.2]
  · intro hop p h1 h2 hnew
    by_cases hp : seg.Has p
    · rw [NewAt, lockedAt_here hlaid hp, matchesAt_here hlaid hp] at hnew
      have hin := (hhead p hp).mp ⟨h1, h2⟩
      exact hseg.able hop p hin.1 hin.2 hnew.1 hnew.2
    · rw [NewAt, lockedAt_there hp, matchesAt_there hp] at hnew
      have hin := (htail p hnew.1.mapped).mp ⟨h1, h2⟩
      exact hsegs.able hop p hin.1 hin.2 hnew

/-! ### The walk through a range -/

/-- The range from `raddr` covers the segment of `p` from the page `s` on. -/
def Start (segs : List Seg) (raddr p s : Nat) : Prop :=
  ∃ seg ∈ segs, seg.Has p ∧ s = if seg.s_base ≤ raddr then raddr else seg.s_base

/-- What the walk from `raddr` leaves, once it has come to `stop`. -/
structure Walked (env : Env) (attr : Nat) (op : Op) (pos raddr rsize stop : Nat)
    (segs : List Seg) (map : Option Words) (r : Option Errno × List Seg × Option Words) :
    Prop where
  le : raddr ≤ stop ∧ stop ≤ raddr + rsize
  done : ListDone env attr op raddr stop segs r.2.1
  mapped : ∀ p, raddr ≤ p → p < stop → Mapped segs p
  isSome : r.2.2.isSome = map.isSome
  bits : ∀ b, bit r.2.2 b = true ↔ bit map b = true ∨ op = .lock ∧ map.isSome = true ∧
    ∃ p s, raddr ≤ p ∧ p < stop ∧ NewAt segs attr p ∧ Start segs raddr p s ∧ b = pos + (p - s)
  ends : r.1 = none ∧ stop = raddr + rsize ∨ r.1 ≠ none ∧ stop < raddr + rsize ∧
    (¬ Mapped segs stop ∨ op = .lock ∧ NewAt segs attr stop ∧ Fails env stop)

variable {raddr s : Nat}

theorem start_here (hlaid : Laid (seg :: segs)) (hp : seg.Has p) :
    Start (seg :: segs) raddr p s ↔ s = if seg.s_base ≤ raddr then raddr else seg.s_base := by
  simp only [Start, exists_mem_cons_iff, hp, true_and]
  refine ⟨fun h => h.elim id ?_, .inl⟩
  rintro ⟨seg', hmem, hhas, _⟩
  have hle := hlaid.before ⟨seg', hmem, hhas⟩
  have hlt := hp.2
  omega

theorem start_there (hp : ¬ seg.Has p) : Start (seg :: segs) raddr p s ↔ Start segs raddr p s := by
  simp only [Start, exists_mem_cons_iff, hp, false_and, false_or]

theorem start_later {raddr' : Nat} (hle : raddr < raddr') (h : ∀ seg ∈ segs, raddr' ≤ seg.s_base) :
    Start segs raddr p s ↔ Start segs raddr' p s := by
  have heq : ∀ seg ∈ segs, (if seg.s_base ≤ raddr then raddr else seg.s_base)
      = if seg.s_base ≤ raddr' then raddr' else seg.s_base := by
    intro seg hmem
    have hseg := h seg hmem
    by_cases hbase : seg.s_base ≤ raddr'
    · rw [if_pos hbase, if_neg (by omega)]
      omega
    · rw [if_neg hbase, if_neg (by omega)]
  constructor
  · rintro ⟨seg, hmem, hhas, hs⟩
    exact ⟨seg, hmem, hhas, by rw [hs, heq seg hmem]⟩
  · rintro ⟨seg, hmem, hhas, hs⟩
    exact ⟨seg, hmem, hhas, by rw [hs, heq seg hmem]⟩

variable {rsize stop : Nat} {e : Option Errno}

/-- The walk ends in its first segment. -/
theorem Walked.first (hlaid : Laid (seg :: segs)) (hhas : seg.Has raddr)
    (hle : raddr ≤ stop ∧ stop ≤ raddr + rsize) (hstop : stop ≤ seg.stop)
    (hseg : SegDone env attr op raddr stop pos seg seg' map map')
    (hends : e = none ∧ stop = raddr + rsize ∨ e ≠ none ∧ stop < raddr + rsize ∧
      (¬ Mapped (seg :: segs) stop ∨ op = .lock ∧ NewAt (seg :: segs) attr stop ∧ Fails env stop)) :
    Walked env attr op pos raddr rsize stop (seg :: segs) map (e, seg' :: segs, map') := by
  have hin : ∀ p, raddr ≤ p → p < stop → seg.Has p := fun p h1 h2 =>
    ⟨hhas.1.trans h1, h2.trans_le hstop⟩
  constructor
  · exact hle
  · refine ListDone.cons hlaid hseg (ListDone.refl env attr op stop segs) (fun _ _ => .rfl) fun p hp => ?_
    have hbefore := hlaid.before hp
    omega
  · exact fun p h1 h2 => mapped_cons.mpr (.inl (hin p h1 h2))
  · exact hseg.isSome
  · intro b
    rw [hseg.bits]
    apply or_congr_right
    apply and_congr_right
    intro _
    apply and_congr_right
    intro _
    constructor
    · rintro ⟨p, h1, h2, h3, h4, h5⟩
      have hp := hin p h1 h2
      refine ⟨p, raddr, h1, h2, ?_, ?_, h5⟩
      · rw [NewAt, lockedAt_here hlaid hp, matchesAt_here hlaid hp]
        exact ⟨h3, h4⟩
      · rw [start_here hlaid hp, if_pos hhas.1]
    · rintro ⟨p, s, h1, h2, h3, h4, h5⟩
      have hp := hin p h1 h2
      rw [NewAt, lockedAt_here hlaid hp, matchesAt_here hlaid hp] at h3
      rw [start_here hlaid hp, if_pos hhas.1] at h4
      exact ⟨p, h1, h2, h3.1, h3.2, by rw [h5, h4]⟩
  · exact hends

variable {r : Option Errno × List Seg × Option Words}

/-- The walk goes on behind its first segment. -/
theorem Walked.rest {rsize' : Nat} (hlaid : Laid (seg :: segs)) (hhas : seg.Has raddr)
    (hsize : seg.stop + rsize' = raddr + rsize)
    (hseg : SegDone env attr op raddr seg.stop pos seg seg' map map')
    (hr : Walked env attr op pos seg.stop rsize' stop segs map' r) :
    Walked env attr op pos raddr rsize stop (seg :: segs) map (r.1, seg' :: r.2.1, r.2.2) := by
  have hlt := hhas.2
  have hle := hr.le
  have hhere : ∀ p, seg.Has p → (raddr ≤ p ∧ p < stop ↔ raddr ≤ p ∧ p < seg.stop) := by
    intro p hp
    have hp2 := hp.2
    omega
  have hthere : ∀ p, Mapped segs p → (raddr ≤ p ∧ p < stop ↔ seg.stop ≤ p ∧ p < stop) := by
    intro p hp
    have hbefore := hlaid.before hp
    omega
  have hlater : ∀ seg₁ ∈ segs, seg.stop ≤ seg₁.s_base := (pairwise_cons.mp hlaid.1).1
  have hnot : ∀ {p}, Mapped segs p → ¬ seg.Has p := fun hp hhas => by
    have hbefore := hlaid.before hp
    have hp2 := hhas.2
    omega
  constructor
  · omega
  · exact ListDone.cons hlaid hseg hr.done hhere hthere
  · intro p h1 h2
    rcases lt_or_ge p seg.stop with h | h
    · exact mapped_cons.mpr (.inl ⟨hhas.1.trans h1, h⟩)
    · exact mapped_cons.mpr (.inr (hr.mapped p h h2))
  · exact hr.isSome.trans hseg.isSome
  · intro b
    rw [hr.bits, hseg.bits, hseg.isSome, or_assoc]
    apply or_congr_right
    constructor
    · rintro (⟨hop, hmap, p, h1, h2, h3, h4, h5⟩ | ⟨hop, hmap, p, s, h1, h2, h3, h4, h5⟩)
      · have hp : seg.Has p := ⟨hhas.1.trans h1, h2⟩
        refine ⟨hop, hmap, p, raddr, h1, by omega, ?_, ?_, h5⟩
        · rw [NewAt, lockedAt_here hlaid hp, matchesAt_here hlaid hp]
          exact ⟨h3, h4⟩
        · rw [start_here hlaid hp, if_pos hhas.1]
      · have hp := hnot h3.1.mapped
        refine ⟨hop, hmap, p, s, by omega, h2, ?_, ?_, h5⟩
        · rw [NewAt, lockedAt_there hp, matchesAt_there hp]
          exact h3
        · rw [start_there hp, start_later hlt hlater]
          exact h4
    · rintro ⟨hop, hmap, p, s, h1, h2, h3, h4, h5⟩
      by_cases hp : seg.Has p
      · rw [NewAt, lockedAt_here hlaid hp, matchesAt_here hlaid hp] at h3
        rw [start_here hlaid hp, if_pos hhas.1] at h4
        exact .inl ⟨hop, hmap, p, h1, hp.2, h3.1, h3.2, by rw [h5, h4]⟩
      · rw [NewAt, lockedAt_there hp, matchesAt_there hp] at h3
        rw [start_there hp, start_later hlt hlater] at h4
        have hbefore := hlaid.before h3.1.mapped
        exact .inr ⟨hop, hmap, p, s, hbefore, h2, h3, h4, h5⟩
  · rcases hr.ends with ⟨hnone, hstop⟩ | ⟨herr, hstop, hwhy⟩
    · exact .inl ⟨hnone, by omega⟩
    refine .inr ⟨herr, by omega, ?_⟩
    have hout : ¬ seg.Has stop := fun h => by
      have h2 := h.2
      omega
    rcases hwhy with hhole | ⟨hop, hnew, hfails⟩
    · exact .inl fun h => (mapped_cons.mp h).elim hout hhole
    · refine .inr ⟨hop, ?_, hfails⟩
      rw [NewAt, lockedAt_there hout, matchesAt_there hout]
      exact hnew

/-- The walk does what it should in a list of segments, from any page of the first one. -/
def Walks (env : Env) (attr : Nat) (op : Op) (pos : Nat) (segs : List Seg) : Prop :=
  ∀ (raddr rsize : Nat) (map : Option Words), (∀ seg, segs.head? = some seg → seg.Has raddr) →
    0 < rsize → raddr + rsize < 0x100000 →
    ∃ stop, Walked env attr op pos raddr rsize stop segs map
      (ctlLoop env attr op pos segs raddr rsize map)

theorem walks_cons (hlaid : Laid (seg :: segs)) (hsegs : segs ≠ [] → Walks env attr op pos segs) :
    Walks env attr op pos (seg :: segs) := by
  intro raddr rsize map hhead hsize hword
  have hhas := hhead seg rfl
  have hlt := hhas.2
  have hsum : addp raddr rsize = raddr + rsize := Nat.mod_eq_of_lt hword
  have hself : ¬ Mapped (seg :: segs) seg.stop ∨ segs.head?.map Seg.s_base = some seg.stop := by
    by_cases hnext : segs.head?.map Seg.s_base = some seg.stop
    · exact .inr hnext
    refine .inl fun hm => ?_
    rcases mapped_cons.mp hm with h | h
    · exact absurd h.2 (lt_irrefl _)
    cases segs with
    | nil =>
      obtain ⟨_, hmem, _⟩ := h
      cases hmem
    | cons next segs =>
      have hbase := (pairwise_cons.mp hlaid.1).1 next (.head _)
      rcases mapped_cons.mp h with h | h
      · exact hnext (congrArg some (le_antisymm h.1 hbase))
      have hbefore := hlaid.tail.before h
      have hpages := (hlaid.2 next (by simp)).1
      rw [Seg.stop] at hbefore hbase
      rw [Seg.stop] at hbefore
      omega
  rw [ctlLoop, hsum]
  generalize hss : (if raddr + rsize > seg.stop then seg.stop - raddr else rsize) = ssize
  have hends : ssize = rsize ∧ raddr + rsize ≤ seg.stop ∨
      raddr + ssize = seg.stop ∧ seg.stop < raddr + rsize := by
    split_ifs at hss <;> omega
  obtain ⟨stop, hle, hdone, hwhy⟩ := lockop_spec env ssize attr op map pos hhas.1
  generalize lockop env seg raddr ssize attr op map pos = r at *
  by_cases herr : op = .lock ∧ r.1 ≠ none
  · rw [if_pos herr]
    rcases hwhy with ⟨hnone, _⟩ | ⟨_, hop, hstop, hmatch, hnew, hfails⟩
    · exact absurd hnone herr.2
    have hin : seg.Has stop := ⟨hhas.1.trans hle, by omega⟩
    refine ⟨stop, Walked.first hlaid hhas (by omega) (by omega) hdone
      (.inr ⟨herr.2, by omega, .inr ⟨hop, ?_, hfails⟩⟩)⟩
    rw [NewAt, lockedAt_here hlaid hin, matchesAt_here hlaid hin]
    exact ⟨hmatch, hnew⟩
  rw [if_neg herr]
  have hstop : stop = raddr + ssize := by
    rcases hwhy with ⟨_, hstop⟩ | ⟨hne, hop, _⟩
    · exact hstop
    · exact absurd ⟨hop, hne⟩ herr
  by_cases hall : rsize - ssize = 0
  · rw [if_pos hall]
    exact ⟨stop, Walked.first hlaid hhas (by omega) (by omega) hdone (.inl ⟨rfl, by omega⟩)⟩
  rw [if_neg hall]
  have hfull : raddr + ssize = seg.stop := by omega
  rw [hfull] at hstop ⊢
  rw [hstop] at hdone
  by_cases hnext : segs.head?.map Seg.s_base ≠ some seg.stop
  · rw [if_pos hnext]
    exact ⟨seg.stop, Walked.first hlaid hhas (by omega) (le_refl _) hdone
      (.inr ⟨by simp, by omega, .inl (hself.resolve_right hnext)⟩)⟩
  rw [if_neg hnext]
  rw [ne_eq, not_not] at hnext
  have hne : segs ≠ [] := fun h => by
    rw [h] at hnext
    exact absurd hnext (by simp)
  have hhead' : ∀ seg₁, segs.head? = some seg₁ → seg₁.Has seg.stop := by
    intro seg₁ h
    rw [h, Option.map_some, Option.some.injEq] at hnext
    have hpages := (hlaid.2 seg₁ (.tail seg (mem_of_head? h))).1
    refine ⟨by omega, ?_⟩
    rw [← hnext]
    exact Nat.lt_add_of_pos_right hpages
  obtain ⟨stop', hwalk⟩ := hsegs hne seg.stop (rsize - ssize) r.2.2 hhead' (by omega) (by omega)
  exact ⟨stop', hwalk.rest hlaid hhas (by omega) hdone⟩

theorem ctlLoop_walks (env : Env) (attr : Nat) (op : Op) (pos : Nat) (hlaid : Laid segs)
    (hne : segs ≠ []) : Walks env attr op pos segs := by
  induction segs with
  | nil => exact absurd rfl hne
  | cons seg segs ih => exact walks_cons hlaid fun h => ih hlaid.tail h

/-- A segment before the range. -/
theorem Walked.skip (hlaid : Laid (seg :: segs)) (hhas : ¬ seg.Has raddr)
    (hr : Walked env attr op pos raddr rsize stop segs map r) :
    Walked env attr op pos raddr rsize stop (seg :: segs) map (r.1, seg :: r.2.1, r.2.2) := by
  have hle := hr.le
  have hout : ∀ p, raddr ≤ p → p ≤ stop → ¬ seg.Has p := by
    intro p h1 h2 hp
    have hp2 := hp.2
    rcases lt_or_ge raddr stop with h | h
    · have hbefore := hlaid.before (hr.mapped raddr (le_refl _) h)
      omega
    · obtain rfl : p = raddr := by omega
      exact hhas hp
  constructor
  · exact hle
  · refine ListDone.cons hlaid (SegDone.empty env attr op raddr pos seg map) hr.done ?_ fun _ _ => .rfl
    intro p hp
    constructor
    · exact fun h => absurd hp (hout p h.1 (by omega))
    · omega
  · exact fun p h1 h2 => mapped_cons.mpr (.inr (hr.mapped p h1 h2))
  · exact hr.isSome
  · intro b
    rw [hr.bits]
    apply or_congr_right
    apply and_congr_right
    intro _
    apply and_congr_right
    intro _
    apply exists_congr
    intro p
    apply exists_congr
    intro s
    apply and_congr_right
    intro h1
    apply and_congr_right
    intro h2
    have hp := hout p h1 (by omega)
    rw [NewAt, NewAt, lockedAt_there hp, matchesAt_there hp, start_there hp]
  · rcases hr.ends with hend | ⟨herr, hstop, hwhy⟩
    · exact .inl hend
    refine .inr ⟨herr, hstop, ?_⟩
    have hp := hout stop hle.1 (le_refl _)
    rcases hwhy with hhole | ⟨hop, hnew, hfails⟩
    · exact .inl fun h => (mapped_cons.mp h).elim hp hhole
    · refine .inr ⟨hop, ?_, hfails⟩
      rw [NewAt, lockedAt_there hp, matchesAt_there hp]
      exact hnew

/-- `as_ctl` for a range. -/
theorem ctlRange_spec (env : Env) (attr : Nat) (op : Op) (pos addr size : Nat) (map : Option Words)
    (hsize : 0 < size) (hword : addr + size < 0x100000) (hlaid : Laid segs) :
    ∃ stop, Walked env attr op pos addr size stop segs map
      (ctlRange env attr op addr size map pos segs) := by
  induction segs with
  | nil =>
    refine ⟨addr, ⟨by omega, ListDone.refl env attr op addr [], fun p h1 h2 => by omega, rfl, ?_,
      .inr ⟨by simp [ctlRange], by omega, .inl ?_⟩⟩⟩
    · intro b
      refine ⟨.inl, fun hb => hb.elim id ?_⟩
      rintro ⟨_, _, p, s, h1, h2, _⟩
      omega
    · rintro ⟨_, hmem, _⟩
      cases hmem
  | cons seg segs ih =>
    rw [ctlRange]
    by_cases hhas : seg.s_base ≤ addr ∧ addr < seg.stop
    · rw [if_pos hhas, if_neg (by omega)]
      refine ctlLoop_walks env attr op pos hlaid (by simp) addr size map ?_ hsize hword
      intro seg₁ h
      rw [List.head?_cons, Option.some.injEq] at h
      rw [← h]
      exact hhas
    · rw [if_neg hhas]
      obtain ⟨stop, hwalk⟩ := ih hlaid.tail
      exact ⟨stop, hwalk.skip hlaid hhas⟩

/-! ### All segments -/

/-- The place of the page `p` among the pages of the segments, the first one of which is at `pos`. -/
def IndexAt : List Seg → Nat → Nat → Nat → Prop
  | [], _, _, _ => False
  | seg :: segs, pos, p, b =>
      (seg.Has p ∧ b = pos + (p - seg.s_base)) ∨ IndexAt segs (pos + seg.s_pages) p b

theorem IndexAt.mapped {b : Nat} (h : IndexAt segs pos p b) : Mapped segs p := by
  induction segs generalizing pos with
  | nil => exact False.elim h
  | cons seg segs ih => exact mapped_cons.mpr (h.imp And.left ih)

/-- The pages up to `stop` are locked, of all segments. -/
structure AllLocked (env : Env) (attr pos stop : Nat) (segs : List Seg) (map : Option Words)
    (r : Option Errno × List Seg × Option Words) : Prop where
  done : ListDone env attr .lock 0 stop segs r.2.1
  isSome : r.2.2.isSome = map.isSome
  bits : ∀ b, bit r.2.2 b = true ↔ bit map b = true ∨ map.isSome = true ∧
    ∃ p, p < stop ∧ NewAt segs attr p ∧ IndexAt segs pos p b
  ends : r.1 = none ∧ stop = 0x100000 ∨ r.1 ≠ none ∧ NewAt segs attr stop ∧ Fails env stop

theorem AllLocked.nil (env : Env) (attr pos : Nat) (map : Option Words) :
    AllLocked env attr pos 0x100000 [] map (none, [], map) := by
  have hno : ∀ {p}, ¬ MatchesAt [] attr p := by
    rintro p ⟨_, hmem, _⟩
    cases hmem
  constructor
  · constructor
    · rfl
    · exact fun _ => .rfl
    · intro p
      rw [done_no fun h => hno h.2.2]
    · exact fun _ p _ _ h => absurd h.1 hno
  · rfl
  · intro b
    refine ⟨.inl, fun hb => hb.elim id ?_⟩
    rintro ⟨_, p, _, h, _⟩
    exact absurd h.1 hno
  · exact .inl ⟨rfl, rfl⟩

/-- A page in the first segment cannot be locked. -/
theorem AllLocked.first (hlaid : Laid (seg :: segs)) (hin : seg.Has stop)
    (hseg : SegDone env attr .lock seg.s_base stop pos seg seg' map map') (herr : e ≠ none)
    (hstop : seg.Matches attr stop ∧ ¬ seg.Locked stop ∧ Fails env stop) :
    AllLocked env attr pos stop (seg :: segs) map (e, seg' :: segs, map') := by
  have hlt := hin.2
  have hhere : ∀ p, p < stop → Mapped (seg :: segs) p → seg.Has p := by
    intro p hp hm
    rcases mapped_cons.mp hm with h | h
    · exact h
    · have hbefore := hlaid.before h
      omega
  constructor
  · refine ListDone.cons hlaid hseg (ListDone.refl env attr .lock stop segs) ?_ ?_
    · intro p hp
      have h1 := hp.1
      omega
    · intro p hp
      have hbefore := hlaid.before hp
      omega
  · exact hseg.isSome
  · intro b
    rw [hseg.bits]
    apply or_congr_right
    constructor
    · rintro ⟨_, hmap, p, h1, h2, h3, h4, h5⟩
      have hp : seg.Has p := ⟨h1, by omega⟩
      refine ⟨hmap, p, h2, ?_, .inl ⟨hp, h5⟩⟩
      rw [NewAt, lockedAt_here hlaid hp, matchesAt_here hlaid hp]
      exact ⟨h3, h4⟩
    · rintro ⟨hmap, p, h2, h3, h4⟩
      have hp := hhere p h2 h3.1.mapped
      rw [NewAt, lockedAt_here hlaid hp, matchesAt_here hlaid hp] at h3
      rcases h4 with ⟨_, h5⟩ | h4
      · exact ⟨rfl, hmap, p, hp.1, h2, h3.1, h3.2, h5⟩
      · have hbefore := hlaid.before h4.mapped
        omega
  · refine .inr ⟨herr, ?_, hstop.2.2⟩
    rw [NewAt, lockedAt_here hlaid hin, matchesAt_here hlaid hin]
    exact ⟨hstop.1, hstop.2.1⟩

/-- The pages of the first segment are locked, and then those after it. -/
theorem AllLocked.rest (hlaid : Laid (seg :: segs))
    (hseg : SegDone env attr .lock seg.s_base seg.stop pos seg seg' map map')
    (hr : AllLocked env attr (pos + seg.s_pages) stop segs map' r) :
    AllLocked env attr pos stop (seg :: segs) map (r.1, seg' :: r.2.1, r.2.2) := by
  have hle : seg.stop ≤ stop := by
    rcases hr.ends with ⟨_, hstop⟩ | ⟨_, hnew, _⟩
    · have hbound := (hlaid.2 seg (.head _)).2
      omega
    · exact hlaid.before hnew.1.mapped
  have hnot : ∀ {p}, Mapped segs p → ¬ seg.Has p := fun hp hhas => by
    have hbefore := hlaid.before hp
    have hp2 := hhas.2
    omega
  constructor
  · refine ListDone.cons hlaid hseg hr.done ?_ fun _ _ => .rfl
    intro p hp
    have h1 := hp.1
    have h2 := hp.2
    omega
  · exact hr.isSome.trans hseg.isSome
  · intro b
    rw [hr.bits, hseg.bits, hseg.isSome, or_assoc]
    apply or_congr_right
    constructor
    · rintro (⟨_, hmap, p, h1, h2, h3, h4, h5⟩ | ⟨hmap, p, h2, h3, h4⟩)
      · have hp : seg.Has p := ⟨h1, h2⟩
        refine ⟨hmap, p, by omega, ?_, .inl ⟨hp, h5⟩⟩
        rw [NewAt, lockedAt_here hlaid hp, matchesAt_here hlaid hp]
        exact ⟨h3, h4⟩
      · have hp := hnot h3.1.mapped
        refine ⟨hmap, p, h2, ?_, .inr h4⟩
        rw [NewAt, lockedAt_there hp, matchesAt_there hp]
        exact h3
    · rintro ⟨hmap, p, h2, h3, h4⟩
      rcases h4 with ⟨hp, h5⟩ | h4
      · rw [NewAt, lockedAt_here hlaid hp, matchesAt_here hlaid hp] at h3
        exact .inl ⟨rfl, hmap, p, hp.1, hp.2, h3.1, h3.2, h5⟩
      · have hp := hnot h4.mapped
        rw [NewAt, lockedAt_there hp, matchesAt_there hp] at h3
        exact .inr ⟨hmap, p, h2, h3, h4⟩
  · rcases hr.ends with hend | ⟨herr, hnew, hfails⟩
    · exact .inl hend
    refine .inr ⟨herr, ?_, hfails⟩
    have hp := hnot hnew.1.mapped
    rw [NewAt, lockedAt_there hp, matchesAt_there hp]
    exact hnew

theorem lockAll_spec (env : Env) (attr : Nat) (hlaid : Laid segs) : ∀ (map : Option Words) (pos : Nat),
      ∃ stop, AllLocked env attr pos stop segs map (lockAll env attr segs map pos) := by
  induction segs with
  | nil => exact fun map pos => ⟨0x100000, AllLocked.nil env attr pos map⟩
  | cons seg segs ih =>
    intro map pos
    rw [lockAll]
    obtain ⟨stop, hle, hdone, hwhy⟩ :=
      lockop_spec env seg.s_pages attr .lock map pos (le_refl seg.s_base)
    generalize lockop env seg seg.s_base seg.s_pages attr .lock map pos = r at *
    split_ifs with herr
    · rcases hwhy with ⟨hnone, _⟩ | ⟨_, _, hstop, hwhy⟩
      · exact absurd hnone herr
      · exact ⟨stop, AllLocked.first hlaid ⟨hle, hstop⟩ hdone herr hwhy⟩
    · rcases hwhy with ⟨_, hstop⟩ | ⟨hne, _⟩
      · rw [hstop] at hdone
        obtain ⟨stop', hall⟩ := ih hlaid.tail r.2.2 (pos + seg.s_pages)
        exact ⟨stop', hall.rest hlaid hdone⟩
      · exact absurd hne herr

end Svr42.Mlock
