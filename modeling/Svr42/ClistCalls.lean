import Svr42.ClistQueues

/-! What every call on a character list does to the queues. -/

namespace Svr42.Clst
open Bool Function List Nat

variable {L Ptr : Type} {s s' : Sys L Ptr} {held : Ptr → Bool}
  {a : Queues L Ptr} {place : Ptr → Place L} {free rest : List Ptr} {chain : L → List Ptr}
  {p q : L} {bp bq : Ptr} {cp cs : List UInt8}

def Holds (s : Sys L Ptr) (held : Ptr → Bool) (a : Queues L Ptr) : Prop :=
  ∃ place free chain, Inv s held a place free chain

def SameCc (s s' : Sys L Ptr) : Prop := ∀ q, (s'.clist q).cCc = (s.clist q).cCc

theorem SameCc.refl (s : Sys L Ptr) : SameCc s s := fun _ => rfl

theorem SameCc.trans {t u : Sys L Ptr} (h : SameCc s t) (h' : SameCc t u) : SameCc s u :=
  fun q => (h' q).trans (h q)

theorem Inv.first (h : Inv s held a place free chain) (hne : (s.clist p).cCf = some bp) :
    ∃ rest, chain p = bp :: rest := by
  have hhead := (h.layout.linked p).start_eq
  rw [hne] at hhead
  exact head?_eq_some_iff.mp hhead.symm

theorem Inv.firstFree (h : Inv s held a place free chain) (hfree : s.cfreelist = some bp) :
    ∃ rest, free = bp :: rest := by
  have hhead := h.layout.linkedFree.start_eq
  rw [hfree] at hhead
  exact head?_eq_some_iff.mp hhead.symm

theorem Inv.free_hand (h : Inv s held a place (bp :: rest) chain) :
    held bp = false ∧ a.hand bp = none := by
  have hheld : held bp = false := by
    rw [eq_false_iff, ne_eq, h.memHeld, (h.layout.memFree bp).mp mem_cons_self]
    exact nofun
  refine ⟨hheld, (h.hand bp).trans (if_neg ?_)⟩
  rw [hheld]
  exact false_ne_true

def Tail (s s' : Sys L Ptr) (held : Ptr → Bool) (a : Queues L Ptr) (p : L) (bp : Ptr) : Prop :=
  SameCc s s' ∧ (s'.block bp).cFirst ≤ (s'.block bp).cLast ∧ (s'.block bp).cLast < CLSIZE ∧
    ∃ place free chain, Part s' held a place free chain p bp

section

variable [DecidableEq L]

theorem Holds.setCc (h : Holds s held a) (p : L) (cc : Int) : Holds (setCc s p cc) held a := by
  obtain ⟨place, free, chain, h⟩ := h
  exact ⟨place, free, chain, h.setCc p cc⟩

theorem sameCc_dropHead (s : Sys L Ptr) (p : L) (bp : Ptr) : SameCc s (dropHead s p bp) := by
  intro q
  rw [dropHead, clist_setClist]
  by_cases hq : q = p
  · rw [if_pos hq, hq]
  · rw [if_neg hq]

theorem SameCc.setCc (h : SameCc s s') (p : L) (cc : Int) : SameCc (setCc s p cc) (setCc s' p cc) := by
  intro q
  rw [Clst.setCc, Clst.setCc, clist_setClist, clist_setClist]
  by_cases hq : q = p
  · rw [if_pos hq, if_pos hq]
  · rw [if_neg hq, if_neg hq]
    exact h q

variable {cc : Int}

theorem Counted.after {a' : Queues L Ptr} (h : Counted s a) (hsame : SameCc (setCc s p cc) s')
    (hp : cc = (a'.queue p).length) (hq : ∀ q, q ≠ p → a'.queue q = a.queue q) : Counted s' a' := by
  intro q
  rw [hsame q, Clst.setCc, clist_setClist]
  split_ifs with heq
  · rw [heq]
    exact hp
  · rw [h q, hq q heq]

theorem Counted.cut {n : Nat} (h : Counted s a) (hsame : SameCc (Clst.setCc s p cc) s')
    (hn : n ≤ (a.queue p).length) (hcc : cc = (s.clist p).cCc - n) : Counted s' (a.cut p n) := by
  refine h.after hsame ?_ fun q hq => update_of_ne hq _ _
  have hlen : ((a.cut p n).queue p).length = (a.queue p).length - n := by
    rw [Queues.queue_cut, length_drop]
  rw [hlen, hcc, h p]
  omega

theorem Counted.append (h : Counted s a) (hsame : SameCc (Clst.setCc s p cc) s')
    (hcc : cc = (s.clist p).cCc + cs.length) : Counted s' (a.append p cs) := by
  refine h.after hsame ?_ fun q hq => update_of_ne hq _ _
  have hlen : ((a.append p cs).queue p).length = (a.queue p).length + cs.length := by
    rw [Queues.queue_append, length_append]
  rw [hlen, hcc, h p]
  omega

end

variable [DecidableEq Ptr]

theorem Holds.edit (h : Holds s held a) (hheld : held bp = true) (b : Cblock Ptr) :
    Holds (setBlock s bp b) held (a.give bp (some (live b))) := by
  obtain ⟨place, free, chain, h⟩ := h
  exact ⟨place, free, chain, h.edit hheld b⟩

theorem Holds.freeBlock (h : Holds s held a) (hheld : held bp = true) :
    Holds (freeBlock s bp) (update held bp false) (a.give bp none) := by
  obtain ⟨place, free, chain, h⟩ := h
  exact ⟨_, _, _, h.freeBlock hheld⟩

theorem setBlock_self (s : Sys L Ptr) (bp : Ptr) : setBlock s bp (s.block bp) = s := by
  rw [setBlock, update_eq_self]

theorem getcf_spec (h : Holds s held a) (hc : Counted s a) (hfree : s.cfreelist = some bp) :
    ∃ s' bytes, getcf s = (s', some bp) ∧ a.hand bp = none ∧ bytes.length = CLSIZE ∧
      Holds s' (update held bp true) (a.give bp (some bytes)) ∧
      Counted s' (a.give bp (some bytes)) := by
  obtain ⟨place, free, chain, h⟩ := h
  obtain ⟨rest, rfl⟩ := h.firstFree hfree
  let b : Cblock Ptr := { s.block bp with cNext := none, cFirst := 0, cLast := CLSIZE }
  have hedit := h.takeFree.edit (update_self _ _ _) b
  rw [Queues.give_give] at hedit
  refine ⟨_, live b, ?_, h.free_hand.2, length_live b, ⟨_, _, _, hedit⟩, hc⟩
  rw [getcf, hfree]

variable [DecidableEq L]

theorem sameCc_linkTail (s : Sys L Ptr) (p : L) (bp : Ptr) : SameCc s (linkTail s p bp) :=
  fun q => cCc_linkTail s p q bp

theorem newTail_none (hfree : s.cfreelist = none) (p : L) : newTail s p = none := by
  rw [newTail, hfree]
  rfl

/-! ### The first block -/

section

variable (h : Inv s held a place free chain)
include h

/-- Bytes are got out of the first block, and there are more. -/
theorem Inv.shrink (hchain : chain p = bp :: rest) {n : Nat}
    (hn : n < (s.block bp).cLast - (s.block bp).cFirst) :
    Inv (setBlock s bp { s.block bp with cFirst := (s.block bp).cFirst + n }) held (a.cut p n)
      place free chain := by
  have hin : bp ∈ chain p := hchain ▸ (.head _)
  let b : Cblock Ptr := { s.block bp with cFirst := (s.block bp).cFirst + n }
  have hself : (setBlock s bp b).block bp = b := update_self _ _ _
  have hother : ∀ bq, bq ≠ bp → (setBlock s bp b).block bq = s.block bq := fun bq hbq =>
    update_of_ne hbq _ _
  have hlive : live (s.block bp) = copyOut (s.block bp).cData (s.block bp).cFirst n ++ live b := by
    have hlen : (s.block bp).cLast - (s.block bp).cFirst =
        n + ((s.block bp).cLast - ((s.block bp).cFirst + n)) := by omega
    rw [live, hlen, copyOut_split]
    rfl
  refine ⟨h.layout.setBlock (.inr rfl), fun q bq hbq => ?_, fun q => ?_, h.memHeld, fun bq => ?_⟩
  · by_cases heq : bq = bp
    · subst heq
      have hfits := h.fits p bq hin
      rw [hself]
      dsimp only [b]
      omega
    · rw [hother bq heq]
      exact h.fits q bq hbq
  · by_cases hq : q = p
    · subst hq
      have hnot : bp ∉ rest := by
        have hnodup := h.layout.nodup q
        rw [hchain] at hnodup
        exact (nodup_cons.mp hnodup).1
      have hrest : content (setBlock s bp b) rest = content s rest :=
        content_congr fun bq hbq => by rw [hother bq (ne_of_mem_of_not_mem hbq hnot)]
      calc (a.cut q n).queue q = (a.queue q).drop n := a.queue_cut q n
        _ = live b ++ content s rest := by
          rw [h.queue, hchain, content_cons, hlive, append_assoc]
          exact drop_left' (length_copyOut _ _ _)
        _ = content (setBlock s bp b) (chain q) := by
          rw [hchain, content_cons, hself, hrest]
    · have hnot : bp ∉ chain q := fun hmem => hq (h.on_one hmem hin)
      calc (a.cut p n).queue q = a.queue q := update_of_ne hq _ _
        _ = content s (chain q) := h.queue q
        _ = content (setBlock s bp b) (chain q) :=
          (content_congr fun bq hbq => by rw [hother bq (ne_of_mem_of_not_mem hbq hnot)]).symm
  · refine (h.hand bq).trans ?_
    split_ifs with hheld
    · have heq : bq ≠ bp := fun heq => by
        rw [heq, h.not_held hin] at hheld
        cases hheld
      rw [hother bq heq]
    · rfl

theorem Inv.exhaust (hchain : chain p = bp :: rest)
    (b : Cblock Ptr) : Holds (Clst.freeBlock (setBlock (Clst.dropHead s p bp) bp b) bp) held
      (a.cut p (live (s.block bp)).length) := by
  have hin : bp ∈ chain p := hchain ▸ (.head _)
  have hhand : a.hand bp = none := (h.hand bp).trans (if_neg (by rw [h.not_held hin]; decide))
  have hdrop := h.dropHead hchain
  have hheld : update held bp true bp = true := update_self _ _ _
  have hfree := (hdrop.edit hheld b).freeBlock hheld
  rw [update_idem, ← h.not_held hin, update_eq_self, Queues.give_give,
    Queues.give_give, Queues.give_same (a := a.cut p _) hhand] at hfree
  exact ⟨_, _, _, hfree⟩

/-! ### The last block -/

/-- A free block is there to be filled. -/
theorem Inv.newTail (p : L) (hfree : s.cfreelist = some bp) :
    ∃ s', newTail s p = some (s', bp) ∧ Tail s s' held a p bp := by
  obtain ⟨rest, rfl⟩ := h.firstFree hfree
  obtain ⟨hheld, hhand⟩ := h.free_hand
  let b : Cblock Ptr := { s.block bp with cNext := none, cFirst := 0, cLast := 0 }
  let t : Sys L Ptr := setBlock { s with cfreelist := (s.block bp).cNext } bp b
  have hself : t.block bp = b := update_self _ _ _
  have htrue : update held bp true bp = true := update_self _ _ _
  have htaken : Inv t (update held bp true) (a.give bp (some []))
      (update place bp .held) rest chain := by
    have hedit := h.takeFree.edit htrue b
    rwa [Queues.give_give] at hedit
  have hpart := htaken.linkTail htrue (congrArg Cblock.cNext hself) p
  have hlive : live (t.block bp) = [] := by
    rw [hself]
    rfl
  rw [hlive, Queues.append_nil, Queues.give_give, Queues.give_same hhand, update_idem,
    ← hheld, update_eq_self] at hpart
  obtain ⟨hfirst, hlast, -⟩ := sameBody_linkTail t p bp bp
  rw [hself] at hfirst hlast
  refine ⟨Clst.linkTail t p bp, ?_, sameCc_linkTail t p bp, ?_, ?_, _, _, _, hpart⟩
  · rw [Clst.newTail, hfree]
    rfl
  · exact Nat.le_of_eq (hfirst.trans hlast.symm)
  · rw [hlast]
    exact zero_lt_succ 63

/-- There is a block with room, unless a free block is wanted and there is none. -/
theorem Inv.tailBlock (p : L) :
    (tailBlock s p = none ∧ s.cfreelist = none) ∨
      ∃ s' bp, tailBlock s p = some (s', bp) ∧ Tail s s' held a p bp := by
  have hnew : (Clst.newTail s p = none ∧ s.cfreelist = none) ∨
      ∃ s' bp, Clst.newTail s p = some (s', bp) ∧ Tail s s' held a p bp := by
    cases hfree : s.cfreelist with
    | none => exact Or.inl ⟨newTail_none hfree p, rfl⟩
    | some bp =>
      obtain ⟨s', hs', hpart⟩ := h.newTail p hfree
      exact Or.inr ⟨s', bp, hs', hpart⟩
  unfold Clst.tailBlock
  cases hlast : (s.clist p).cCl with
  | none => exact hnew
  | some bp =>
    dsimp only
    split_ifs with hfull
    · exact hnew
    · obtain ⟨front, hfront⟩ := getLast?_eq_some_iff.mp ((h.layout.last p).symm.trans hlast)
      have hfits := h.fits p bp (hfront ▸ mem_append_right _ (.head _))
      exact Or.inr ⟨s, bp, rfl, SameCc.refl s, Nat.le_of_lt hfits.1,
        Nat.lt_of_le_of_ne hfits.2 hfull, place, free, chain, h.layout, ⟨front, hfront⟩,
        fun q bq hbq _ => h.fits q bq hbq, h.queue, h.memHeld, h.hand⟩

end

/-! ### The calls -/

theorem dropHead_setBlock {b : Cblock Ptr} (hb : b.cNext = (s.block bp).cNext) :
    dropHead (setBlock s bp b) p bp = setBlock (dropHead s p bp) bp b := by
  unfold dropHead
  have hself : (setBlock s bp b).block bp = b := update_self _ _ _
  rw [hself, hb]
  rfl

section

variable (h : Holds s held a) (hc : Counted s a)
include h hc

/-- The oldest byte is got. -/
theorem getc_spec (p : L) : ∃ s', getc s p = some (s', (a.queue p).head?) ∧ Holds s' held (a.cut p 1) ∧
      Counted s' (a.cut p 1) := by
  obtain ⟨place, free, chain, h⟩ := h
  by_cases hnil : a.queue p = []
  · have hzero : ¬ 0 < (s.clist p).cCc := by
      rw [hc p, hnil]
      decide
    rw [getc, if_neg hzero, Queues.cut_nil hnil, hnil]
    exact ⟨s, rfl, ⟨place, free, chain, h⟩, hc⟩
  have hpos : 0 < (s.clist p).cCc := by
    have hlen := length_pos_iff.mpr hnil
    rw [hc p]
    omega
  have hfirst : (s.clist p).cCf ≠ none := fun hnone => hnil ((h.first_iff p).mp hnone)
  obtain ⟨bp, hbp⟩ := Option.ne_none_iff_exists'.mp hfirst
  obtain ⟨rest, hchain⟩ := h.first hbp
  have hfits := h.fits p bp (hchain ▸ (.head _))
  have hqueue : a.queue p = live (s.block bp) ++ content s rest := by
    rw [h.queue, hchain, content_cons]
  have hhead : (a.queue p).head? = some ((s.block bp).cData (s.block bp).cFirst) := by
    have hlen : (s.block bp).cLast - (s.block bp).cFirst =
        1 + ((s.block bp).cLast - (s.block bp).cFirst - 1) := by omega
    rw [hqueue, live, hlen, copyOut_split, copyOut_one]
    rfl
  have hone : 1 ≤ (a.queue p).length := length_pos_iff.mpr hnil
  let cc := (s.clist p).cCc - 1
  let b : Cblock Ptr := { s.block bp with cFirst := (s.block bp).cFirst + 1 }
  have hcc := h.setCc p cc
  have hget : getc s p = if (s.block bp).cFirst + 1 = (s.block bp).cLast then
        some (freeBlock (dropHead (setBlock (setCc s p cc) bp b) p bp) bp,
          some ((s.block bp).cData (s.block bp).cFirst))
      else some (setBlock (setCc s p cc) bp b, some ((s.block bp).cData (s.block bp).cFirst)) := by
    have hhead : ((setCc s p cc).clist p).cCf = some bp := by
      rw [setCc, clist_setClist, if_pos rfl]
      exact hbp
    unfold getc
    rw [if_pos hpos]
    dsimp only
    rw [hhead]
    split_ifs with hlast
    · exact congrArg some (if_pos hlast)
    · exact congrArg some (if_neg hlast)
  rw [hget, hhead]
  by_cases hlast : (s.block bp).cFirst + 1 = (s.block bp).cLast
  · rw [if_pos hlast, dropHead_setBlock (s := setCc s p cc) (b := b) rfl]
    refine ⟨_, rfl, ?_, ?_⟩
    · have hlen : (live ((setCc s p cc).block bp)).length = 1 := by
        rw [length_live]
        exact Nat.sub_eq_of_eq_add' hlast.symm
      have hdone := hcc.exhaust hchain b
      rwa [hlen] at hdone
    · exact hc.cut (sameCc_dropHead (setCc s p cc) p bp) hone rfl
  · have hmore : 1 < (s.block bp).cLast - (s.block bp).cFirst := by omega
    rw [if_neg hlast]
    exact ⟨_, rfl, ⟨place, free, chain, hcc.shrink hchain hmore⟩, hc.cut (SameCc.refl _) hone rfl⟩

theorem putc_spec (c : UInt8) (p : L) : (putc s c p = (s, false) ∧ s.cfreelist = none) ∨
      ∃ s', putc s c p = (s', true) ∧ Holds s' held (a.append p [c]) ∧ Counted s' (a.append p [c]) := by
  obtain ⟨place, free, chain, h⟩ := h
  obtain ⟨hnone, hfree⟩ | ⟨t, bp, htail, hsame, hle, hlt, place, free, chain, hpart⟩ := h.tailBlock p
  · exact .inl ⟨by rw [putc, hnone], hfree⟩
  · have hfill := hpart.fill hle (cons_ne_nil c []) (succ_le_of_lt (Nat.sub_pos_of_lt hlt))
    refine .inr ⟨setCc (fill t bp [c]) p ((t.clist p).cCc + 1), ?_,
      ⟨place, free, chain, hfill.setCc p _⟩, ?_⟩
    · rw [putc, htail]
      rfl
    · rw [hsame p]
      have hfilled : SameCc s (fill t bp [c]) := hsame
      exact hc.append (hfilled.setCc p _) rfl

theorem getcb_spec (hfirst : (s.clist p).cCf = some bp) :
    ∃ s' bytes, getcb s p = (s', some bp) ∧ a.hand bp = none ∧ bytes ≠ [] ∧
      bytes <+: a.queue p ∧
      Holds s' (update held bp true) ((a.cut p bytes.length).give bp (some bytes)) ∧
      Counted s' ((a.cut p bytes.length).give bp (some bytes)) := by
  obtain ⟨place, free, chain, h⟩ := h
  obtain ⟨rest, hchain⟩ := h.first hfirst
  have hin : bp ∈ chain p := hchain ▸ (.head _)
  have hfits := h.fits p bp hin
  have hlen := length_live (s.block bp)
  have hprefix : live (s.block bp) <+: a.queue p := by
    rw [h.queue, hchain, content_cons]
    exact prefix_append _ _
  let cc := (s.clist p).cCc - (((s.block bp).cLast : Int) - (s.block bp).cFirst)
  refine ⟨dropHead (setCc s p cc) p bp, live (s.block bp), ?_, ?_, ?_, hprefix,
    ⟨_, _, _, (h.setCc p cc).dropHead hchain⟩, ?_⟩
  · rw [getcb, hfirst]
  · exact (h.hand bp).trans (if_neg (by rw [h.not_held hin]; exact false_ne_true))
  · refine ne_nil_of_length_pos ?_
    omega
  · refine hc.cut (sameCc_dropHead (setCc s p cc) p bp) hprefix.length_le ?_
    rw [hlen, Int.ofNat_sub (Nat.le_of_lt hfits.1)]

/-- The bytes of a block come behind the others. -/
theorem putcb_spec (hheld : held bp = true)
    (hbp : (s.block bp).cFirst < (s.block bp).cLast ∧ (s.block bp).cLast ≤ CLSIZE) (p : L) :
    Holds (putcb s bp p) (update held bp false) ((a.append p (live (s.block bp))).give bp none) ∧
      Counted (putcb s bp p) ((a.append p (live (s.block bp))).give bp none) := by
  obtain ⟨place, free, chain, h⟩ := h
  have hout : (s.clist p).cCl ≠ some bp := fun hlast => by
    have hmem : bp ∈ chain p := mem_of_getLast? ((h.layout.last p).symm.trans hlast)
    rw [h.not_held hmem] at hheld
    exact false_ne_true hheld
  let t : Sys L Ptr := setBlock s bp { s.block bp with cNext := none }
  have hself : t.block bp = { s.block bp with cNext := none } := update_self _ _ _
  have hpart := (h.edit hheld { s.block bp with cNext := none }).linkTail hheld
    (congrArg Cblock.cNext hself) p
  obtain ⟨hfirst, hlast, -⟩ := sameBody_linkTail t p bp bp
  rw [hself] at hfirst hlast
  have hlive : live (t.block bp) = live (s.block bp) := by
    rw [hself]
    rfl
  have hqueues : ((a.give bp (some (live (s.block bp)))).append p (live (t.block bp))).give bp none =
      (a.append p (live (s.block bp))).give bp none := by
    rw [hlive]
    exact Queues.give_give (a.append p (live (s.block bp))) bp _ none
  have hinv := hpart.inv (by rw [hfirst, hlast]; exact hbp)
  have hholds : Holds (linkTail t p bp) (update held bp false)
      ((a.append p (live (s.block bp))).give bp none) := by
    rw [← hqueues]
    exact ⟨_, _, _, hinv⟩
  have hput : putcb s bp p = setCc (linkTail t p bp) p
      ((s.clist p).cCc + (((s.block bp).cLast : Int) - (s.block bp).cFirst)) := by
    have hcc : ((linkTail t p bp).clist p).cCc = (s.clist p).cCc := cCc_linkTail t p p bp
    unfold putcb
    dsimp only
    rw [linkTail_comm hout, hfirst, hlast, hcc]
  rw [hput]
  refine ⟨hholds.setCc p _, ?_⟩
  have hsame : SameCc s (linkTail t p bp) := sameCc_linkTail t p bp
  refine hc.append (hsame.setCc p _) ?_
  rw [length_live, Int.ofNat_sub (Nat.le_of_lt hbp.1)]

end

/-! ### Bytes in and out of a buffer -/

/-- The oldest bytes are got, block by block. -/
theorem getcbpLoop_spec (p : L) :
    ∀ (fuel : Nat) (s : Sys L Ptr) (a : Queues L Ptr) (n : Nat) (acp : List UInt8), n < fuel →
      Holds s held a → ∃ s', getcbpLoop fuel s p n acp = some (s', acp ++ (a.queue p).take n) ∧
        Holds s' held (a.cut p n) ∧ SameCc s s'
  | 0, _, _, _, _, hfuel, _ => absurd hfuel (Nat.not_lt_zero _)
  | fuel + 1, s, a, n, acp, hfuel, h => by
    by_cases hn : n = 0
    · subst hn
      rw [getcbpLoop, if_pos rfl, take_zero, append_nil, Queues.cut_zero]
      exact ⟨s, rfl, h, SameCc.refl s⟩
    obtain ⟨place, free, chain, h⟩ := h
    rw [getcbpLoop, if_neg hn]
    cases hfirst : (s.clist p).cCf with
    | none =>
      have hnil := (h.first_iff p).mp hfirst
      rw [hnil, take_nil, append_nil, Queues.cut_nil hnil]
      exact ⟨s, rfl, ⟨place, free, chain, h⟩, SameCc.refl s⟩
    | some bp =>
      obtain ⟨rest, hchain⟩ := h.first hfirst
      have hfits := h.fits p bp (hchain ▸ (.head _))
      have hqueue : a.queue p = live (s.block bp) ++ content s rest := by
        rw [h.queue, hchain, content_cons]
      have hlen := length_live (s.block bp)
      dsimp only
      by_cases hon : (s.block bp).cLast - (s.block bp).cFirst ≤ n
      · have hdone := h.exhaust hchain (s.block bp)
        have hself : setBlock (dropHead s p bp) bp (s.block bp) = dropHead s p bp :=
          setBlock_self (dropHead s p bp) bp
        rw [hself, hlen] at hdone
        obtain ⟨s', hs', hholds, hsame⟩ := getcbpLoop_spec p fuel _ _
          (n - ((s.block bp).cLast - (s.block bp).cFirst)) (acp ++ live (s.block bp))
          (by omega) hdone
        rw [Queues.cut_cut, Nat.add_sub_cancel' hon] at hholds
        rw [if_pos hon]
        refine ⟨s', hs'.trans ?_, hholds, (sameCc_dropHead s p bp).trans hsame⟩
        have hwhole : (live (s.block bp)).take n = live (s.block bp) := take_of_length_le (hlen ▸ hon)
        rw [Queues.queue_cut, hqueue, ← hlen, drop_left, take_append, hwhole, append_assoc]
      · rw [if_neg hon]
        have hlt : n < (s.block bp).cLast - (s.block bp).cFirst := Nat.lt_of_not_le hon
        refine ⟨_, ?_, ⟨place, free, chain, h.shrink hchain hlt⟩, SameCc.refl s⟩
        have hsplit : (s.block bp).cLast - (s.block bp).cFirst =
            n + ((s.block bp).cLast - (s.block bp).cFirst - n) := by omega
        rw [hqueue, take_append_of_le_length (hlen ▸ Nat.le_of_lt hlt), live, hsplit,
          copyOut_split, take_left' (length_copyOut _ _ _)]

theorem getcbp_spec (h : Holds s held a) (hc : Counted s a) (p : L) (n : Nat) :
    ∃ s', getcbp s p n = some (s', (a.queue p).take n) ∧ Holds s' held (a.cut p n) ∧
      Counted s' (a.cut p n) := by
  obtain ⟨s', hs', hholds, hsame⟩ := getcbpLoop_spec p (n + 1) s a n [] (lt_succ_self n) h
  refine ⟨setCc s' p ((s'.clist p).cCc - ((a.queue p).take n).length), ?_, hholds.setCc p _, ?_⟩
  · rw [getcbp, hs']
    rfl
  · have hcut : a.cut p n = a.cut p ((a.queue p).take n).length := by
      rw [Queues.cut, Queues.cut, length_take, drop_eq_drop_iff.mpr]
      omega
    rw [hcut, hsame p]
    exact hc.cut (hsame.setCc p _) (length_take_le' _ _) rfl

/-- The bytes are put block by block, until there is no free block. -/
theorem putcbpLoop_spec (p : L) :
    ∀ (fuel : Nat) (s : Sys L Ptr) (a : Queues L Ptr) (cp : List UInt8) (k : Nat),
      cp.length < fuel → Holds s held a →
      ∃ s' m, putcbpLoop fuel s p cp k = some (s', k + m) ∧ m ≤ cp.length ∧
        (m < cp.length → s'.cfreelist = none) ∧ Holds s' held (a.append p (cp.take m)) ∧
        SameCc s s'
  | 0, _, _, _, _, hfuel, _ => absurd hfuel (Nat.not_lt_zero _)
  | fuel + 1, s, a, cp, k, hfuel, h => by
    by_cases hcp : cp = []
    · subst hcp
      rw [putcbpLoop, if_pos rfl]
      refine ⟨s, 0, rfl, Nat.le_refl 0, fun hlt => absurd hlt (Nat.lt_irrefl 0), ?_, SameCc.refl s⟩
      rwa [take_nil, Queues.append_nil]
    have hholds := h
    obtain ⟨place, free, chain, h⟩ := h
    rw [putcbpLoop, if_neg hcp]
    obtain ⟨hnone, hfree⟩ | ⟨t, bp, htail, hsame, hle, hlt, place, free, chain, hpart⟩ := h.tailBlock p
    · rw [hnone]
      refine ⟨s, 0, rfl, Nat.zero_le _, fun _ => hfree, ?_, SameCc.refl s⟩
      rwa [take_zero, Queues.append_nil]
    · rw [htail]
      dsimp only
      by_cases hon : CLSIZE - (t.block bp).cLast ≤ cp.length
      · have htake : (cp.take (CLSIZE - (t.block bp).cLast)).length =
            CLSIZE - (t.block bp).cLast := length_take_of_le hon
        have htaken : cp.take (CLSIZE - (t.block bp).cLast) ≠ [] := ne_nil_of_length_pos (by omega)
        have hfill := hpart.fill hle htaken (Nat.le_of_eq htake)
        obtain ⟨s', m, hs', hm, hshort, hdone, hsame'⟩ := putcbpLoop_spec p fuel _ _
          (cp.drop (CLSIZE - (t.block bp).cLast)) (k + (CLSIZE - (t.block bp).cLast))
          (by rw [length_drop]; omega) ⟨_, _, _, hfill⟩
        rw [length_drop] at hm hshort
        rw [if_pos hon]
        refine ⟨s', CLSIZE - (t.block bp).cLast + m, ?_, by omega, fun hlt => hshort (by omega),
          ?_, hsame.trans hsame'⟩
        · rw [hs', Nat.add_assoc]
        · rwa [Queues.append_append, ← take_add] at hdone
      · rw [if_neg hon]
        have hfill := hpart.fill hle hcp (Nat.le_of_lt (Nat.lt_of_not_le hon))
        refine ⟨_, cp.length, rfl, Nat.le_refl _, fun hlt => absurd hlt (Nat.lt_irrefl _), ?_, hsame⟩
        rw [take_length]
        exact ⟨_, _, _, hfill⟩

/-- The bytes are put behind the others, up to the first that there is no free block for. -/
theorem putcbp_spec (h : Holds s held a) (hc : Counted s a) (p : L) (cp : List UInt8) :
    ∃ s' m, putcbp s p cp = some (s', m) ∧ m ≤ cp.length ∧
      (m < cp.length → s'.cfreelist = none) ∧ Holds s' held (a.append p (cp.take m)) ∧
      Counted s' (a.append p (cp.take m)) := by
  obtain ⟨s', m, hs', hm, hshort, hholds, hsame⟩ :=
    putcbpLoop_spec p (cp.length + 1) s a cp 0 (Nat.lt_succ_self _) h
  rw [Nat.zero_add] at hs'
  refine ⟨setCc s' p ((s'.clist p).cCc + m), m, ?_, hm, hshort, hholds.setCc p _, ?_⟩
  · rw [putcbp, hs']
    rfl
  · rw [hsame p]
    refine hc.append (hsame.setCc p _) ?_
    rw [length_take_of_le hm]

end Svr42.Clst
