import Svr42.ClistLayout

/-! Character lists as queues of bytes. -/

namespace Svr42.Clst
open Function List

variable {L Ptr : Type}

/-- The bytes in every list, and those in the blocks that callers have. -/
structure Queues (L Ptr : Type) where
  queue : L → List UInt8
  hand : Ptr → Option (List UInt8)

/-- The blocks are in their places and hold the bytes of the queues. -/
structure Inv (s : Sys L Ptr) (held : Ptr → Bool) (a : Queues L Ptr) (place : Ptr → Place L)
    (free : List Ptr) (chain : L → List Ptr) : Prop where
  layout : Layout s place free chain
  fits : ∀ p, ∀ bp ∈ chain p, (s.block bp).cFirst < (s.block bp).cLast ∧
    (s.block bp).cLast ≤ CLSIZE
  queue : ∀ p, a.queue p = content s (chain p)
  memHeld : ∀ bp, held bp = true ↔ place bp = .held
  hand : ∀ bp, a.hand bp = if held bp = true then some (live (s.block bp)) else none

def Counted (s : Sys L Ptr) (a : Queues L Ptr) : Prop :=
  ∀ p, (s.clist p).cCc = (a.queue p).length

/-- The last block of `p` may still be empty. -/
structure Part (s : Sys L Ptr) (held : Ptr → Bool) (a : Queues L Ptr) (place : Ptr → Place L)
    (free : List Ptr) (chain : L → List Ptr) (p : L) (bp : Ptr) : Prop where
  layout : Layout s place free chain
  last : ∃ front, chain p = front ++ [bp]
  fits : ∀ p, ∀ bq ∈ chain p, bq ≠ bp → (s.block bq).cFirst < (s.block bq).cLast ∧
    (s.block bq).cLast ≤ CLSIZE
  queue : ∀ p, a.queue p = content s (chain p)
  memHeld : ∀ bp, held bp = true ↔ place bp = .held
  hand : ∀ bp, a.hand bp = if held bp = true then some (live (s.block bp)) else none

variable {s s' : Sys L Ptr} {held : Ptr → Bool} {a : Queues L Ptr} {place : Ptr → Place L}
  {free rest : List Ptr} {chain : L → List Ptr} {p q : L} {bp bq : Ptr} {cs : List UInt8}

theorem content_same {cells : List Ptr} (hsame : ∀ bq, bq ≠ bp → SameBody (s.block bq) (s'.block bq))
    (hbp : bp ∉ cells) : content s' cells = content s cells :=
  content_congr fun bq hbq => (hsame bq (ne_of_mem_of_not_mem hbq hbp)).live

section

variable (h : Inv s held a place free chain)
include h

theorem Inv.empty_iff (p : L) : a.queue p = [] ↔ chain p = [] := by
  rw [h.queue p]
  constructor
  · intro hnil
    cases hchain : chain p with
    | nil => rfl
    | cons bp rest =>
      have hlt := (h.fits p bp (hchain ▸ (.head _))).1
      have hlen := congrArg length hnil
      rw [hchain, content_cons, length_append, length_live, length_nil] at hlen
      omega
  · intro hnil
    rw [hnil]
    rfl

theorem Inv.first_iff (p : L) : (s.clist p).cCf = none ↔ a.queue p = [] := by
  rw [h.empty_iff, (h.layout.linked p).start_eq, head?_eq_none_iff]

theorem Inv.last_iff (p : L) : (s.clist p).cCl = none ↔ a.queue p = [] := by
  rw [h.empty_iff, h.layout.last, getLast?_eq_none_iff]

theorem Inv.on_one (hp : bp ∈ chain p) (hq : bp ∈ chain q) : p = q := by
  rw [h.layout.memChain] at hp hq
  exact Place.on.inj (hp.symm.trans hq)

theorem Inv.not_held (hp : bp ∈ chain p) : held bp = false := by
  rw [h.layout.memChain] at hp
  rw [Bool.eq_false_iff, ne_eq, h.memHeld, hp]
  exact nofun

end

theorem Part.inv (h : Part s held a place free chain p bp)
    (hbp : (s.block bp).cFirst < (s.block bp).cLast ∧ (s.block bp).cLast ≤ CLSIZE) :
    Inv s held a place free chain := by
  refine ⟨h.layout, fun q bq hbq => ?_, h.queue, h.memHeld, h.hand⟩
  by_cases heq : bq = bp
  · rw [heq]
    exact hbp
  · exact h.fits q bq hbq heq

section

variable [DecidableEq L]

def Queues.append (a : Queues L Ptr) (p : L) (cs : List UInt8) : Queues L Ptr :=
  { a with queue := update a.queue p (a.queue p ++ cs) }

def Queues.cut (a : Queues L Ptr) (p : L) (n : Nat) : Queues L Ptr :=
  { a with queue := update a.queue p ((a.queue p).drop n) }

theorem Queues.queue_append (a : Queues L Ptr) (p : L) (cs : List UInt8) :
    (a.append p cs).queue p = a.queue p ++ cs :=
  update_self _ _ _

theorem Queues.queue_cut (a : Queues L Ptr) (p : L) (n : Nat) :
    (a.cut p n).queue p = (a.queue p).drop n :=
  update_self _ _ _

theorem Queues.append_nil (a : Queues L Ptr) (p : L) : a.append p [] = a := by
  rw [Queues.append, List.append_nil, update_eq_self]

theorem Queues.append_append (a : Queues L Ptr) (p : L) (cs cs' : List UInt8) :
    (a.append p cs).append p cs' = a.append p (cs ++ cs') := by
  simp only [Queues.append, update_self, update_idem, append_assoc]

theorem Queues.cut_zero (a : Queues L Ptr) (p : L) : a.cut p 0 = a := by
  rw [Queues.cut, drop_zero, update_eq_self]

theorem Queues.cut_nil (h : a.queue p = []) (n : Nat) : a.cut p n = a := by
  rw [Queues.cut, h, drop_nil, ← h, update_eq_self]

theorem Queues.cut_cut (a : Queues L Ptr) (p : L) (n m : Nat) :
    (a.cut p n).cut p m = a.cut p (n + m) := by
  simp only [Queues.cut, update_self, update_idem, drop_drop]

theorem Inv.setCc (h : Inv s held a place free chain) (p : L) (cc : Int) :
    Inv (setCc s p cc) held a place free chain :=
  { h with layout := h.layout.setCc p cc }

end

variable [DecidableEq Ptr]

def Queues.give (a : Queues L Ptr) (bp : Ptr) (bytes : Option (List UInt8)) : Queues L Ptr :=
  { a with hand := update a.hand bp bytes }

theorem Queues.give_give (a : Queues L Ptr) (bp : Ptr) (bytes bytes' : Option (List UInt8)) :
    (a.give bp bytes).give bp bytes' = a.give bp bytes' := by
  rw [Queues.give, Queues.give, update_idem]
  rfl

theorem Queues.give_same (h : a.hand bp = none) : a.give bp none = a := by
  rw [Queues.give, ← h, update_eq_self]

theorem live_fill (h : (s.block bp).cFirst ≤ (s.block bp).cLast) (cs : List UInt8) :
    live ((fill s bp cs).block bp) = live (s.block bp) ++ cs := by
  have hfill : (fill s bp cs).block bp = { s.block bp with
      cData := copyIn (s.block bp).cData (s.block bp).cLast cs
      cLast := (s.block bp).cLast + cs.length } := update_self _ _ _
  rw [hfill]
  exact copyOut_fill h

theorem sameBody_fill (hbq : bq ≠ bp) : SameBody (s.block bq) ((fill s bp cs).block bq) := by
  have hfill : (fill s bp cs).block bq = s.block bq := update_of_ne hbq _ _
  rw [hfill]
  exact ⟨rfl, rfl, rfl⟩

/-! ### Blocks that change hands -/

/-- The callers' blocks when `bp` goes to a caller, or from it, and no other block changes. -/
theorem Inv.handed {t : Sys L Ptr} (h : Inv s held a place free chain) (bp : Ptr) (v : Bool)
    (dest : Place L) (hv : v = true ↔ dest = .held) (hlive : ∀ bq, live (t.block bq) = live (s.block bq)) :
    (∀ bq, update held bp v bq = true ↔ update place bp dest bq = .held) ∧
      ∀ bq, update a.hand bp (if v = true then some (live (s.block bp)) else none) bq =
        if update held bp v bq = true then some (live (t.block bq)) else none := by
  simp only [hlive, ← forall_and]
  intro bq
  by_cases hbq : bq = bp
  · subst hbq
    simpa using hv
  · simp only [update_of_ne hbq]
    exact ⟨h.memHeld bq, h.hand bq⟩

section

variable (h : Inv s held a place free chain) (hheld : held bp = true)
include h hheld

theorem Inv.edit (b : Cblock Ptr) :
    Inv (setBlock s bp b) held (a.give bp (some (live b))) place free chain := by
  have hplace : place bp = .held := (h.memHeld bp).mp hheld
  have hout : ∀ q, bp ∉ chain q := fun q hmem => by
    rw [h.layout.memChain, hplace] at hmem
    cases hmem
  have hother : ∀ bq, bq ≠ bp → (setBlock s bp b).block bq = s.block bq := fun bq hbq =>
    update_of_ne hbq _ _
  refine ⟨h.layout.setBlock (.inl hplace), fun q bq hbq => ?_, fun q => ?_, h.memHeld, fun bq => ?_⟩
  · rw [hother bq (ne_of_mem_of_not_mem hbq (hout q))]
    exact h.fits q bq hbq
  · refine (h.queue q).trans (content_congr fun bq hbq => ?_).symm
    rw [hother bq (ne_of_mem_of_not_mem hbq (hout q))]
  · by_cases hbq : bq = bp
    · subst hbq
      rw [if_pos hheld]
      have hbq : (setBlock s bq b).block bq = b := update_self _ _ _
      rw [hbq]
      exact update_self _ _ _
    · rw [hother bq hbq]
      exact (update_of_ne hbq _ _).trans (h.hand bq)

theorem Inv.freeBlock : Inv (freeBlock s bp) (update held bp false) (a.give bp none)
      (update place bp .free) (bp :: free) chain := by
  have hplace : place bp = .held := (h.memHeld bp).mp hheld
  have hsame : ∀ bq, SameBody (s.block bq) ((Clst.freeBlock s bp).block bq) := fun bq =>
    sameBody_setNext s bp bq s.cfreelist
  obtain ⟨hmem, hhand⟩ := h.handed bp false .free (by simp) fun bq => (hsame bq).live
  refine ⟨h.layout.freeBlock hplace, fun q bq hbq => ?_, fun q => ?_, hmem, hhand⟩
  · rw [(hsame bq).1, (hsame bq).2.1]
    exact h.fits q bq hbq
  · exact (h.queue q).trans (content_congr fun bq _ => (hsame bq).live).symm

end

theorem Inv.takeFree (h : Inv s held a place (bp :: rest) chain) :
    Inv { s with cfreelist := (s.block bp).cNext } (update held bp true)
      (a.give bp (some (live (s.block bp)))) (update place bp .held) rest chain := by
  obtain ⟨hmem, hhand⟩ := h.handed bp true .held (by simp) fun _ => rfl
  exact ⟨h.layout.takeFree, h.fits, h.queue, hmem, hhand⟩

variable [DecidableEq L]

/-- The block that a caller has goes behind the last one of a list. -/
theorem Inv.linkTail (h : Inv s held a place free chain) (hheld : held bp = true)
    (hnext : (s.block bp).cNext = none) (p : L) : Part (linkTail s p bp) (update held bp false)
      ((a.append p (live (s.block bp))).give bp none) (update place bp (.on p)) free
      (update chain p (chain p ++ [bp])) p bp := by
  have hplace : place bp = .held := (h.memHeld bp).mp hheld
  have hsame : ∀ bq, SameBody (s.block bq) ((Clst.linkTail s p bp).block bq) := fun bq =>
    sameBody_linkTail s p bp bq
  have hcontent : ∀ cells, content (Clst.linkTail s p bp) cells = content s cells := fun cells =>
    content_congr fun bq _ => (hsame bq).live
  obtain ⟨hmem, hhand⟩ := h.handed bp false (.on p) (by simp) fun bq => (hsame bq).live
  refine ⟨h.layout.linkTail hplace hnext p, ⟨chain p, update_self _ _ _⟩,
    fun q bq hbq hne => ?_, fun q => ?_, hmem, hhand⟩
  · rw [(hsame bq).1, (hsame bq).2.1]
    by_cases hq : q = p
    · subst hq
      rw [update_self, mem_append, mem_singleton, or_iff_left hne] at hbq
      exact h.fits q bq hbq
    · rw [update_of_ne hq] at hbq
      exact h.fits q bq hbq
  · rw [hcontent]
    by_cases hq : q = p
    · subst hq
      rw [update_self, content_append, content_cons]
      calc (a.append q (live (s.block bp))).queue q = a.queue q ++ live (s.block bp) :=
            a.queue_append q _
        _ = content s (chain q) ++ (live (s.block bp) ++ content s []) := by
          rw [h.queue]
          exact congrArg _ (append_nil _).symm
    · rw [update_of_ne hq]
      exact (update_of_ne hq _ _).trans (h.queue q)

/-- The block gets bytes, as many as it has room for. -/
theorem Part.fill (h : Part s held a place free chain p bp)
    (hroom : (s.block bp).cFirst ≤ (s.block bp).cLast) (hne : cs ≠ [])
    (hlen : cs.length ≤ CLSIZE - (s.block bp).cLast) :
    Inv (Clst.fill s bp cs) held (a.append p cs) place free chain := by
  obtain ⟨front, hfront⟩ := h.last
  have hin : bp ∈ chain p := by
    rw [hfront]
    exact mem_append_right _ (.head _)
  have hon : place bp = .on p := (h.layout.memChain bp p).mp hin
  have hfill : (Clst.fill s bp cs).block bp = { s.block bp with
      cData := copyIn (s.block bp).cData (s.block bp).cLast cs
      cLast := (s.block bp).cLast + cs.length } := update_self _ _ _
  refine ⟨h.layout.setBlock (.inr rfl), fun q bq hbq => ?_, fun q => ?_, h.memHeld, fun bq => ?_⟩
  · by_cases heq : bq = bp
    · subst heq
      have hpos := length_pos_iff.mpr hne
      rw [hfill]
      dsimp only
      omega
    · have hsame : SameBody (s.block bq) ((Clst.fill s bp cs).block bq) := sameBody_fill heq
      obtain ⟨hfirst, hlast, -⟩ := hsame
      rw [hfirst, hlast]
      exact h.fits q bq hbq heq
  · by_cases hq : q = p
    · subst hq
      have hnodup := h.layout.nodup q
      rw [hfront, nodup_append] at hnodup
      have hnot : bp ∉ front := fun hmem =>
        hnodup.2.2 bp hmem bp (mem_singleton.mpr rfl) rfl
      calc (a.append q cs).queue q = a.queue q ++ cs := a.queue_append q cs
        _ = content s front ++ (live (s.block bp) ++ cs) := by
          rw [h.queue, hfront, content_append, content_cons, append_assoc, append_assoc]
          rfl
        _ = content (Clst.fill s bp cs) (chain q) := by
          rw [hfront, content_append, content_cons, live_fill hroom,
            content_same (fun bq hbq => sameBody_fill hbq) hnot]
          exact congrArg _ (append_nil _).symm
    · have hnot : bp ∉ chain q := fun hmem => by
        rw [h.layout.memChain, hon] at hmem
        exact hq (Place.on.inj hmem).symm
      calc (a.append p cs).queue q = a.queue q := update_of_ne hq _ _
        _ = content (Clst.fill s bp cs) (chain q) := by
          rw [h.queue, content_same (fun bq hbq => sameBody_fill hbq) hnot]
  · refine (h.hand bq).trans ?_
    split_ifs with hheld
    · have heq : bq ≠ bp := fun heq => by
        rw [h.memHeld, heq, hon] at hheld
        cases hheld
      rw [(sameBody_fill heq).live]
    · rfl

/-- The first block of a list goes to a caller. -/
theorem Inv.dropHead (h : Inv s held a place free chain) (hchain : chain p = bp :: rest) :
    Inv (dropHead s p bp) (update held bp true)
      ((a.cut p (live (s.block bp)).length).give bp (some (live (s.block bp))))
      (update place bp .held) free (update chain p rest) := by
  have hmem : ∀ q, ∀ bq ∈ update chain p rest q, bq ∈ chain q := by
    intro q bq hbq
    by_cases hq : q = p
    · subst hq
      rw [update_self] at hbq
      rw [hchain]
      exact .tail _ hbq
    · rwa [update_of_ne hq] at hbq
  obtain ⟨hheld, hhand⟩ := h.handed bp true .held (by simp) fun _ => rfl
  refine ⟨h.layout.dropHead hchain, fun q bq hbq => h.fits q bq (hmem q bq hbq), fun q => ?_,
    hheld, hhand⟩
  · by_cases hq : q = p
    · subst hq
      calc (a.cut q (live (s.block bp)).length).queue q
          = (a.queue q).drop (live (s.block bp)).length := a.queue_cut q _
        _ = content s rest := by
          rw [h.queue, hchain, content_cons, drop_left]
        _ = content s (update chain q rest q) := by rw [update_self]
    · rw [update_of_ne hq]
      exact (update_of_ne hq _ _).trans (h.queue q)

end Svr42.Clst
