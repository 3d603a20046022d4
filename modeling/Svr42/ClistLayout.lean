import Svr42.ClistModel

/-! Where the blocks are, and what is in them. -/

namespace Svr42.Clst
open Function List

variable {L Ptr : Type} {s s' : Sys L Ptr} {p q : L} {bp bq : Ptr} {b : Cblock Ptr}
  {cs cs' : List UInt8}

def live (b : Cblock Ptr) : List UInt8 := copyOut b.cData b.cFirst (b.cLast - b.cFirst)

def content (s : Sys L Ptr) (cells : List Ptr) : List UInt8 :=
  cells.flatMap fun bp => live (s.block bp)

inductive Place (L : Type) where
  | free
  | on (p : L)
  | held

/-- Every block is in its place. -/
structure Layout (s : Sys L Ptr) (place : Ptr → Place L) (free : List Ptr)
    (chain : L → List Ptr) : Prop where
  linkedFree : Linked (fun bp => (s.block bp).cNext) s.cfreelist free
  linked : ∀ p, Linked (fun bp => (s.block bp).cNext) (s.clist p).cCf (chain p)
  last : ∀ p, (s.clist p).cCl = (chain p).getLast?
  memFree : ∀ bp, bp ∈ free ↔ place bp = .free
  memChain : ∀ bp p, bp ∈ chain p ↔ place bp = .on p

def SameBody (b b' : Cblock Ptr) : Prop :=
  b'.cFirst = b.cFirst ∧ b'.cLast = b.cLast ∧ b'.cData = b.cData

theorem SameBody.live {b b' : Cblock Ptr} (h : SameBody b b') : live b' = live b := by
  unfold Clst.live
  rw [h.1, h.2.1, h.2.2]

theorem length_live (b : Cblock Ptr) : (live b).length = b.cLast - b.cFirst := by
  rw [live, copyOut, length_map, length_range']

theorem content_congr {cells : List Ptr} (h : ∀ bp ∈ cells, live (s'.block bp) = live (s.block bp)) :
    content s' cells = content s cells :=
  flatMap_congr h

theorem content_append (cells cells' : List Ptr) :
    content s (cells ++ cells') = content s cells ++ content s cells' :=
  flatMap_append

theorem content_cons (bp : Ptr) (cells : List Ptr) :
    content s (bp :: cells) = live (s.block bp) ++ content s cells :=
  flatMap_cons

/-! ### Blocks that move -/

variable {place : Ptr → Place L} {free rest : List Ptr} {chain : L → List Ptr}

theorem Layout.nodup (h : Layout s place free chain) (p : L) : (chain p).Nodup := (h.linked p).nodup

theorem Layout.congr (h : Layout s place free chain)
    (hnext : ∀ bp, place bp ≠ .held → (s'.block bp).cNext = (s.block bp).cNext)
    (hclist : ∀ p, (s'.clist p).cCf = (s.clist p).cCf ∧ (s'.clist p).cCl = (s.clist p).cCl)
    (hfree : s'.cfreelist = s.cfreelist) : Layout s' place free chain where
  linkedFree := by
    rw [hfree]
    refine h.linkedFree.congr fun bp hbp => hnext bp ?_
    rw [(h.memFree bp).mp hbp]
    exact nofun
  linked p := by
    rw [(hclist p).1]
    refine (h.linked p).congr fun bp hbp => hnext bp ?_
    rw [(h.memChain bp p).mp hbp]
    exact nofun
  last p := by rw [(hclist p).2, h.last]
  memFree := h.memFree
  memChain := h.memChain

theorem clist_setClist [DecidableEq L] (cl : Clist Ptr) (q : L) :
    (setClist s p cl).clist q = if q = p then cl else s.clist q := by
  by_cases hq : q = p
  · subst hq
    simp [setClist]
  · simp [setClist, hq]

theorem Layout.setCc [DecidableEq L] (h : Layout s place free chain) (p : L) (cc : Int) :
    Layout (setCc s p cc) place free chain := by
  refine h.congr (fun _ _ => rfl) (fun q => ?_) rfl
  rw [Clst.setCc, clist_setClist]
  split_ifs with hq
  · rw [hq]
    exact ⟨rfl, rfl⟩
  · exact ⟨rfl, rfl⟩

variable [DecidableEq Ptr]

theorem next_setBlock (s : Sys L Ptr) (bp : Ptr) (b : Cblock Ptr) :
    (fun bq => ((setBlock s bp b).block bq).cNext) =
      update (fun bq => (s.block bq).cNext) bp b.cNext := by
  funext bq
  by_cases hbq : bq = bp
  · subst hbq
    simp [setBlock]
  · simp [setBlock, hbq]

theorem Layout.setBlock (h : Layout s place free chain)
    (hb : place bp = .held ∨ b.cNext = (s.block bp).cNext) :
    Layout (setBlock s bp b) place free chain := by
  refine h.congr (fun bq hbq => ?_) (fun _ => ⟨rfl, rfl⟩) rfl
  by_cases heq : bq = bp
  · subst heq
    have hnext := hb.resolve_left hbq
    simpa [Clst.setBlock] using hnext
  · simp [Clst.setBlock, heq]

theorem place_update {pl : Place L} (hbp : place bp = pl) (pl' : Place L) (bq : Ptr) (target : Place L)
    (ht : target ≠ pl) (ht' : target ≠ pl') : update place bp pl' bq = target ↔ place bq = target := by
  by_cases hbq : bq = bp
  · subst hbq
    rw [update_self, hbp]
    exact iff_of_false ht'.symm ht.symm
  · rw [update_of_ne hbq]

theorem next_freeBlock (s : Sys L Ptr) (bp : Ptr) : (fun bq => ((freeBlock s bp).block bq).cNext) =
      update (fun bq => (s.block bq).cNext) bp s.cfreelist :=
  next_setBlock s bp _

theorem Layout.freeBlock (h : Layout s place free chain) (hbp : place bp = .held) :
    Layout (freeBlock s bp) (update place bp .free) (bp :: free) chain where
  linkedFree := by
    have hnot : bp ∉ free := fun hmem => by
      rw [h.memFree, hbp] at hmem
      cases hmem
    have hpush := h.linkedFree.push hnot
    rwa [← next_freeBlock] at hpush
  linked p := by
    have hnot : bp ∉ chain p := fun hmem => by
      rw [h.memChain, hbp] at hmem
      cases hmem
    have hsame := (h.linked p).update_of_notMem hnot s.cfreelist
    rwa [← next_freeBlock] at hsame
  last := h.last
  memFree bq := by
    by_cases hbq : bq = bp
    · subst hbq
      simp
    · rw [update_of_ne hbq, mem_cons, or_iff_right hbq, h.memFree]
  memChain bq p := by
    exact (h.memChain bq p).trans (place_update hbp .free bq (.on p) nofun nofun).symm

theorem Layout.takeFree (h : Layout s place (bp :: rest) chain) :
    Layout { s with cfreelist := (s.block bp).cNext } (update place bp .held) rest chain where
  linkedFree := h.linkedFree.2
  linked := h.linked
  last := h.last
  memFree bq := by
    by_cases hbq : bq = bp
    · subst hbq
      rw [update_self]
      exact iff_of_false (nodup_cons.mp h.linkedFree.nodup).1 nofun
    · rw [update_of_ne hbq, ← h.memFree, mem_cons, or_iff_right hbq]
  memChain bq p := by
    have hfree : place bp = .free := (h.memFree bp).mp (.head _)
    exact (h.memChain bq p).trans (place_update hfree .held bq (.on p) nofun nofun).symm

theorem sameBody_setNext (s : Sys L Ptr) (bp bq : Ptr) (next : Option Ptr) :
    SameBody (s.block bq) ((setBlock s bp { s.block bp with cNext := next }).block bq) := by
  by_cases hbq : bq = bp
  · subst hbq
    simp [setBlock, SameBody]
  · simp [setBlock, SameBody, hbq]

variable [DecidableEq L]

/-- The first block of a list is taken off. -/
theorem Layout.dropHead (h : Layout s place free chain) (hchain : chain p = bp :: rest) :
    Layout (dropHead s p bp) (update place bp .held) free (update chain p rest) where
  linkedFree := h.linkedFree
  linked q := by
    rw [Clst.dropHead, clist_setClist]
    by_cases hq : q = p
    · subst hq
      have hlinked := h.linked q
      rw [hchain] at hlinked
      rw [if_pos rfl, update_self]
      exact hlinked.2
    · rw [if_neg hq, update_of_ne hq]
      exact h.linked q
  last q := by
    rw [Clst.dropHead, clist_setClist]
    by_cases hq : q = p
    · subst hq
      have hlinked := h.linked q
      rw [hchain] at hlinked
      have hnext : (s.block bp).cNext = rest.head? := hlinked.2.start_eq
      rw [if_pos rfl, update_self]
      rw [hnext, h.last, hchain]
      cases rest with
      | nil => rfl
      | cons x rest =>
        rw [if_neg (by simp), getLast?_cons_cons]
    · rw [if_neg hq, update_of_ne hq, h.last]
  memFree bq := by
    have hon : place bp = .on p := (h.memChain bp p).mp (hchain ▸ (.head _))
    exact (h.memFree bq).trans (place_update hon .held bq .free nofun nofun).symm
  memChain bq q := by
    have hnodup := h.nodup p
    rw [hchain] at hnodup
    by_cases hbq : bq = bp
    · subst hbq
      have hon : place bq = .on p := (h.memChain bq p).mp (hchain ▸ (.head _))
      rw [update_self]
      refine iff_of_false ?_ nofun
      by_cases hq : q = p
      · subst hq
        rw [update_self]
        exact (nodup_cons.mp hnodup).1
      · rw [update_of_ne hq, h.memChain, hon]
        exact fun heq => hq (Place.on.inj heq).symm
    · rw [update_of_ne hbq, ← h.memChain]
      by_cases hq : q = p
      · subst hq
        rw [update_self, hchain, mem_cons, or_iff_right hbq]
      · rw [update_of_ne hq]

theorem linkTail_none (hlast : (s.clist p).cCl = none) (bp : Ptr) :
    linkTail s p bp = setClist (setClist s p { s.clist p with cCf := some bp }) p
      { s.clist p with cCf := some bp, cCl := some bp } := by
  unfold linkTail
  rw [hlast]
  dsimp only
  rw [clist_setClist, if_pos rfl]

theorem linkTail_some {obp : Ptr} (hlast : (s.clist p).cCl = some obp) (bp : Ptr) :
    linkTail s p bp = setClist (setBlock s obp { s.block obp with cNext := some bp }) p
      { s.clist p with cCl := some bp } := by
  unfold linkTail
  rw [hlast]
  rfl

/-- A block is put behind the last one of a list. -/
theorem Layout.linkTail (h : Layout s place free chain) (hbp : place bp = .held)
    (hnext : (s.block bp).cNext = none) (p : L) :
    Layout (linkTail s p bp) (update place bp (.on p)) free (update chain p (chain p ++ [bp])) := by
  have hmemFree : ∀ bq, bq ∈ free ↔ update place bp (.on p) bq = .free := fun bq =>
    (h.memFree bq).trans (place_update hbp (.on p) bq .free nofun nofun).symm
  have hnot : bp ∉ chain p := fun hmem => by
    rw [h.memChain, hbp] at hmem
    cases hmem
  have hmemChain : ∀ bq q, bq ∈ update chain p (chain p ++ [bp]) q ↔
      update place bp (.on p) bq = .on q := by
    intro bq q
    by_cases hbq : bq = bp
    · subst hbq
      rw [update_self]
      by_cases hq : q = p
      · subst hq
        rw [update_self]
        simp
      · rw [update_of_ne hq, h.memChain, hbp]
        exact iff_of_false nofun fun heq => hq (Place.on.inj heq).symm
    · rw [update_of_ne hbq, ← h.memChain]
      by_cases hq : q = p
      · subst hq
        rw [update_self, mem_append, mem_singleton, or_iff_left hbq]
      · rw [update_of_ne hq]
  cases hlast : (s.clist p).cCl with
  | none =>
    have hnil : chain p = [] := getLast?_eq_none_iff.mp ((h.last p).symm.trans hlast)
    rw [linkTail_none hlast]
    refine ⟨h.linkedFree, fun q => ?_, fun q => ?_, hmemFree, hmemChain⟩
    · rw [clist_setClist, clist_setClist]
      by_cases hq : q = p
      · subst hq
        rw [if_pos rfl, update_self, hnil]
        exact ⟨rfl, hnext⟩
      · rw [if_neg hq, if_neg hq, update_of_ne hq]
        exact h.linked q
    · rw [clist_setClist, clist_setClist]
      by_cases hq : q = p
      · subst hq
        rw [if_pos rfl, update_self, getLast?_concat]
      · rw [if_neg hq, if_neg hq, update_of_ne hq, h.last]
  | some obp =>
    have hobp : obp ∈ chain p := mem_of_getLast? ((h.last p).symm.trans hlast)
    have hon : place obp = .on p := (h.memChain obp p).mp hobp
    rw [linkTail_some hlast]
    refine ⟨?_, fun q => ?_, fun q => ?_, hmemFree, hmemChain⟩
    · have hout : obp ∉ free := fun hmem => by
        rw [h.memFree, hon] at hmem
        cases hmem
      have hsame := h.linkedFree.update_of_notMem hout (some bp)
      rwa [← next_setBlock s obp { s.block obp with cNext := some bp }] at hsame
    · rw [clist_setClist]
      by_cases hq : q = p
      · subst hq
        rw [if_pos rfl, update_self]
        obtain ⟨front, hfront⟩ := getLast?_eq_some_iff.mp ((h.last q).symm.trans hlast)
        have hlinked := h.linked q
        rw [hfront] at hlinked hnot
        have hsnoc := hlinked.snoc hnot hnext
        rw [hfront, append_assoc]
        rwa [← next_setBlock s obp { s.block obp with cNext := some bp }] at hsnoc
      · have hout : obp ∉ chain q := fun hmem => by
          rw [h.memChain, hon] at hmem
          exact hq (Place.on.inj hmem).symm
        rw [if_neg hq, update_of_ne hq]
        have hsame := (h.linked q).update_of_notMem hout (some bp)
        rwa [← next_setBlock s obp { s.block obp with cNext := some bp }] at hsame
    · rw [clist_setClist]
      by_cases hq : q = p
      · subst hq
        rw [if_pos rfl, update_self, getLast?_concat]
      · rw [if_neg hq, update_of_ne hq]
        exact h.last q

theorem linkTail_comm (hlast : (s.clist p).cCl ≠ some bp) :
    setBlock (linkTail s p bp) bp { (linkTail s p bp).block bp with cNext := none } =
      linkTail (setBlock s bp { s.block bp with cNext := none }) p bp := by
  cases hl : (s.clist p).cCl with
  | none =>
    rw [linkTail_none hl, linkTail_none (s := setBlock s bp { s.block bp with cNext := none }) hl]
    rfl
  | some obp =>
    have hne : bp ≠ obp := fun heq => hlast (heq ▸ hl)
    rw [linkTail_some hl, linkTail_some (s := setBlock s bp { s.block bp with cNext := none }) hl]
    simp only [setClist, setBlock, update_of_ne hne, update_of_ne hne.symm]
    rw [update_comm hne]

theorem sameBody_linkTail (s : Sys L Ptr) (p : L) (bp bq : Ptr) :
    SameBody (s.block bq) ((linkTail s p bp).block bq) := by
  cases hl : (s.clist p).cCl with
  | none =>
    rw [linkTail_none hl]
    exact ⟨rfl, rfl, rfl⟩
  | some obp =>
    rw [linkTail_some hl]
    exact sameBody_setNext s obp bq (some bp)

theorem cCc_linkTail (s : Sys L Ptr) (p q : L) (bp : Ptr) :
    ((linkTail s p bp).clist q).cCc = (s.clist q).cCc := by
  cases hl : (s.clist p).cCl with
  | none =>
    rw [linkTail_none hl, clist_setClist, clist_setClist]
    split_ifs with hq
    · rw [hq]
    · rfl
  | some obp =>
    rw [linkTail_some hl, clist_setClist]
    split_ifs with hq
    · rw [hq]
    · rfl

end Svr42.Clst
