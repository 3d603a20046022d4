import Mathlib.Data.List.Nodup

/-! Doubly linked lists in a heap: a head record, and a next and a previous link for every cell. The
ways to put a cell in and to take one out, and the list that the links spell afterwards. -/

namespace Svr42
open Function List

structure DList (α : Type*) where
  first : Option α
  last : Option α
  next : α → Option α
  prev : α → Option α

namespace DList

variable {α : Type*}

/-- Forwards and backwards the links spell the one list, and the head record has its ends. -/
structure Spells (d : DList α) (xs : List α) : Prop where
  nodup : xs.Nodup
  first : d.first = xs.head?
  last : d.last = xs.getLast?
  links : ∀ pre a post, xs = pre ++ a :: post → d.next a = post.head? ∧ d.prev a = pre.getLast?

def AgreeOff (d d' : DList α) (xs : List α) : Prop :=
  ∀ a, a ∉ xs → d'.next a = d.next a ∧ d'.prev a = d.prev a

variable {d d' : DList α} {pre post : List α} {b : α}

theorem Spells.prev_head (h : d.Spells (pre ++ post)) {t : α} (ht : post.head? = some t) :
    d.prev t = pre.getLast? := by
  obtain ⟨rest, rfl⟩ := head?_eq_some_iff.mp ht
  exact (h.links pre t rest rfl).2

theorem Spells.next_last (h : d.Spells (pre ++ post)) {t : α} (ht : pre.getLast? = some t) :
    d.next t = post.head? := by
  obtain ⟨front, rfl⟩ := getLast?_eq_some_iff.mp ht
  exact (h.links front t post (by simp)).1

theorem Spells.unique {xs ys : List α} (h : d.Spells xs) (h' : d.Spells ys) : xs = ys := by
  have htail : ∀ rest rest' front front', xs = front ++ rest → ys = front' ++ rest' →
      rest.head? = rest'.head? → rest = rest' := by
    intro rest
    induction rest with
    | nil =>
      intro rest' _ _ _ _ hhead
      exact (head?_eq_none_iff.mp hhead.symm).symm
    | cons a rest ih =>
      intro rest' front front' hxs hys hhead
      obtain ⟨rest', rfl⟩ := head?_eq_some_iff.mp hhead.symm
      have hnext := (h.links front a rest hxs).1
      rw [(h'.links front' a rest' hys).1] at hnext
      rw [ih rest' (front ++ [a]) (front' ++ [a]) (by simp [hxs]) (by simp [hys]) hnext.symm]
  exact htail xs ys [] [] rfl rfl (by rw [← h.first, ← h'.first])

/-- `while (p(tmp)) tmp = tmp->next`, in at most so many passes: where it stops. It does not stop at
the end of the list. -/
def skip (next : α → Option α) (p : α → Bool) : Nat → Option α → Option α
  | 0, _ => none
  | _ + 1, none => none
  | fuel + 1, some tmp => if p tmp = true then skip next p fuel (next tmp) else some tmp

theorem Spells.skip (p : α → Bool) (front mid : List α) {t : α} {fuel : Nat}
    (h : d.Spells (front ++ mid ++ t :: post)) (hmid : ∀ a ∈ mid, p a = true) (ht : p t = false)
    (hfuel : mid.length < fuel) : DList.skip d.next p fuel (mid ++ t :: post).head? = some t := by
  induction mid generalizing front fuel with
  | nil =>
    obtain ⟨fuel, rfl⟩ := Nat.exists_eq_succ_of_ne_zero (Nat.ne_of_gt hfuel)
    simp [DList.skip, ht]
  | cons c mid ih =>
    obtain ⟨fuel, rfl⟩ := Nat.exists_eq_succ_of_ne_zero
      (Nat.ne_of_gt (Nat.lt_of_le_of_lt (Nat.zero_le _) hfuel))
    have hnext := (h.links front c (mid ++ t :: post) (by simp)).1
    rw [cons_append, head?_cons, DList.skip, if_pos (hmid c (.head _)), hnext]
    exact ih (front ++ [c]) (by simpa using h) (fun a ha => hmid a (.tail _ ha))
      (by simpa using hfuel)

theorem skip_more {next : α → Option α} {p : α → Bool} {fuel fuel' : Nat} {o : Option α} {t : α}
    (h : DList.skip next p fuel o = some t) (hle : fuel ≤ fuel') :
    DList.skip next p fuel' o = some t := by
  induction fuel generalizing fuel' o with
  | zero => cases h
  | succ fuel ih =>
    obtain ⟨fuel', rfl⟩ := Nat.exists_eq_succ_of_ne_zero (Nat.ne_of_gt (Nat.lt_of_lt_of_le (Nat.succ_pos _) hle))
    cases o with
    | none => cases h
    | some tmp =>
      rw [DList.skip] at h ⊢
      split at h
      · rename_i hp
        rw [if_pos hp]
        exact ih h (Nat.le_of_succ_le_succ hle)
      · rename_i hp
        rw [if_neg hp]
        exact h

/-- The list read from its end. -/
def flip (d : DList α) : DList α := ⟨d.last, d.first, d.prev, d.next⟩

theorem Spells.flip {xs : List α} (h : d.Spells xs) : d.flip.Spells xs.reverse where
  nodup := nodup_reverse.mpr h.nodup
  first := by rw [DList.flip, h.last, head?_reverse]
  last := by rw [DList.flip, h.first, getLast?_reverse]
  links pre a post heq := by
    have hlinks := h.links post.reverse a pre.reverse (by rw [← reverse_reverse xs, heq]; simp)
    rw [head?_reverse, getLast?_reverse] at hlinks
    exact hlinks.symm

theorem Spells.next_ne (h : d.Spells (pre ++ post)) (hb : b ∉ pre ++ post) {t : α}
    (ht : pre.getLast? = some t) : t ≠ b ∧ d.next t ≠ some b := by
  refine ⟨fun heq => hb (heq ▸ mem_append_left _ (mem_of_getLast? ht)), fun hn => ?_⟩
  rw [h.next_last ht] at hn
  exact hb (mem_append_right _ (mem_of_head? hn))

variable [DecidableEq α]

/-- The links after `new` has come in the place of `old`. -/
theorem Spells.spliced {old new : List α} (h : d.Spells (pre ++ old ++ post)) (hnodup : (pre ++ new ++ post).Nodup)
    (hfirst : d'.first = (pre ++ new ++ post).head?) (hlast : d'.last = (pre ++ new ++ post).getLast?)
    (hnew : ∀ front a rest, new = front ++ a :: rest →
      d'.next a = (rest ++ post).head? ∧ d'.prev a = (pre ++ front).getLast?)
    (hnext : ∀ a ∈ pre ++ post, d'.next a = if pre.getLast? = some a then (new ++ post).head? else d.next a)
    (hprev : ∀ a ∈ pre ++ post, d'.prev a = if post.head? = some a then (pre ++ new).getLast? else d.prev a) :
    d'.Spells (pre ++ new ++ post) := by
  have hdisjoint : ∀ a ∈ pre, a ∉ post := fun a ha hpost =>
    disjoint_of_nodup_append hnodup (mem_append_left new ha) hpost
  have hbefore : ∀ front a mid, pre = front ++ a :: mid →
      d'.next a = (mid ++ new ++ post).head? ∧ d'.prev a = front.getLast? := by
    rintro front a mid rfl
    obtain ⟨hold, hold'⟩ := h.links front a (mid ++ old ++ post) (by simp)
    have hhead : post.head? ≠ some a := fun hhead => hdisjoint a (by simp) (mem_of_head? hhead)
    refine ⟨?_, by rw [hprev a (by simp), if_neg hhead, hold']⟩
    rw [hnext a (by simp)]
    rcases eq_nil_or_concat mid with rfl | ⟨mid, e, rfl⟩
    · simp
    · have hin := (nodup_cons.mp hnodup.of_append_left.of_append_left.of_append_right).1
      have hne : e ≠ a := fun he => hin (by simp [he])
      rw [if_neg (by simpa [getLast?_append, getLast?_cons] using hne), hold]
      cases mid <;> simp
  have hafter : ∀ mid a rest, post = mid ++ a :: rest →
      d'.next a = rest.head? ∧ d'.prev a = (pre ++ new ++ mid).getLast? := by
    rintro mid a rest rfl
    obtain ⟨hold, hold'⟩ := h.links (pre ++ old ++ mid) a rest (by simp)
    have hpre : pre.getLast? ≠ some a := fun hlast' => hdisjoint a (mem_of_getLast? hlast') (by simp)
    refine ⟨by rw [hnext a (by simp), if_neg hpre, hold], ?_⟩
    rw [hprev a (by simp)]
    cases mid with
    | nil => simp
    | cons e mid =>
      have hin := (nodup_cons.mp hnodup.of_append_right).1
      have hne : e ≠ a := fun he => hin (by simp [he])
      rw [if_neg (by simpa using hne), hold']
      simp [getLast?_append, getLast?_cons]
  refine ⟨hnodup, hfirst, hlast, fun front a rest heq => ?_⟩
  rcases append_eq_append_iff.mp heq with ⟨mid, rfl, hmid⟩ | ⟨mid, hmid, hrest⟩
  · exact hafter mid a rest hmid
  cases mid with
  | nil =>
    rw [append_nil] at hmid
    simpa [hmid] using hafter [] a rest hrest.symm
  | cons c mid =>
    obtain ⟨rfl, rfl⟩ := cons.inj hrest
    rcases append_eq_append_iff.mp hmid with ⟨mid', rfl, hmid'⟩ | ⟨mid', hpre, hmid'⟩
    · exact hnew mid' a mid hmid'
    cases mid' with
    | nil =>
      rw [append_nil] at hpre
      simpa [hpre] using hnew [] a mid hmid'.symm
    | cons c mid' =>
      obtain ⟨rfl, rfl⟩ := cons.inj hmid'
      exact hbefore front a mid' hpre

/-! ### The operations -/

@[simps]
def setFirst (d : DList α) (p : Option α) : DList α := { d with first := p }

@[simps]
def setLast (d : DList α) (p : Option α) : DList α := { d with last := p }

@[simps]
def setNext (d : DList α) (a : α) (p : Option α) : DList α :=
  { d with next := update d.next a p }

@[simps]
def setPrev (d : DList α) (a : α) (p : Option α) : DList α :=
  { d with prev := update d.prev a p }

def linkOnly (d : DList α) (b : α) : DList α :=
  (((d.setNext b none).setPrev b none).setFirst (some b)).setLast (some b)

def linkEnd (d : DList α) (b tmp : α) : DList α :=
  (((d.setNext b none).setPrev b (some tmp)).setNext tmp (some b)).setLast (some b)

/-- `b` before the first cell. -/
def linkFront (d : DList α) (b : α) : DList α :=
  let d := d.setNext b d.first
  let d := match d.first with
    | some tmp => d.setPrev tmp (some b)
    | none => d.setLast (some b)
  (d.setFirst (some b)).setPrev b none

/-- `b` before `tmp`. -/
def linkBefore (d : DList α) (b tmp : α) : DList α :=
  let d := (d.setNext b (some tmp)).setPrev b (d.prev tmp)
  let d := match d.prev tmp with
    | some p => d.setNext p (some b)
    | none => d.setFirst (some b)
  d.setPrev tmp (some b)

/-- `b` after `tmp`. -/
def linkAfter (d : DList α) (b tmp : α) : DList α :=
  let d := d.setNext b (d.next tmp)
  let d := match d.next tmp with
    | some n => d.setPrev n (some b)
    | none => d.setLast (some b)
  (d.setPrev b (some tmp)).setNext tmp (some b)

/-- `b` out of the list. -/
def unlink (d : DList α) (b : α) : DList α :=
  let d := match d.prev b with
    | some p => d.setNext p (d.next b)
    | none => d.setFirst (d.next b)
  let d := match d.next b with
    | some n => d.setPrev n (d.prev b)
    | none => d.setLast (d.prev b)
  (d.setNext b none).setPrev b none

/-- `b`, the first cell, out of the list. -/
def unlinkFirst (d : DList α) (b : α) : DList α :=
  let d := d.setFirst (d.next b)
  let d := match d.first with
    | none => d.setLast none
    | some n => d.setPrev n none
  (d.setNext b none).setPrev b none

section

variable {t : α}

theorem linkBefore_eq (hne : t ≠ b) : d.linkBefore b t =
    { first := if d.prev t = none then some b else d.first
      last := d.last
      next := fun a => if d.prev t = some a then some b else if a = b then some t else d.next a
      prev := fun a => if a = t then some b else if a = b then d.prev t else d.prev a } := by
  cases hp : d.prev t <;>
    simp [DList.linkBefore, setNext, setPrev, setFirst, hne, hp, funext_iff, update_apply, eq_comm]

theorem flip_linkBefore (hne : t ≠ b) (hn : d.next t ≠ some b) :
    (d.flip.linkBefore b t).flip = d.linkAfter b t := by
  have hb : ∀ n, d.next t = some n → n ≠ b := fun n hn' he => hn (he ▸ hn')
  cases hn' : d.next t with
  | none => simp [DList.linkBefore, DList.linkAfter, DList.flip, hne, hn', setNext, setPrev, setFirst, setLast]
  | some n =>
    simp [DList.linkBefore, DList.linkAfter, DList.flip, hne, hn', setNext, setPrev, update_comm (hb n hn')]

theorem linkFront_eq (ht : d.first = some t) (hp : d.prev t = none) (hne : t ≠ b) :
    d.linkFront b = d.linkBefore b t := by
  simp [DList.linkFront, DList.linkBefore, ht, hp, hne, setNext, setPrev, setFirst, update_comm hne]

theorem linkEnd_eq (ht : d.next t = none) (hne : t ≠ b) : d.linkEnd b t = d.linkAfter b t := by
  simp [DList.linkEnd, DList.linkAfter, ht, hne, setNext, setPrev, setLast]

theorem unlink_eq (hp : ∀ p, d.prev b = some p → b ≠ p) : d.unlink b =
    { first := if d.prev b = none then d.next b else d.first
      last := if d.next b = none then d.prev b else d.last
      next := fun a => if a = b then none else if d.prev b = some a then d.next b else d.next a
      prev := fun a => if a = b then none else if d.next b = some a then d.prev b else d.prev a } := by
  cases hn : d.next b <;> cases hp' : d.prev b with
  | none => simp [DList.unlink, setNext, setPrev, setFirst, setLast, hn, hp', funext_iff, update_apply, eq_comm]
  | some p =>
    simp [DList.unlink, setNext, setPrev, setLast, hn, hp', hp p hp', funext_iff, update_apply, eq_comm]

theorem unlinkFirst_eq (hp : d.prev b = none) : d.unlinkFirst b = d.unlink b := by
  cases hn : d.next b <;> simp [DList.unlinkFirst, DList.unlink, hp, hn]

end

theorem spells_linkOnly (d : DList α) (b : α) : (d.linkOnly b).Spells [b] where
  nodup := nodup_singleton b
  first := rfl
  last := rfl
  links pre a post heq := by
    obtain ⟨rfl, rfl, rfl⟩ : pre = [] ∧ a = b ∧ post = [] := by
      cases pre <;> simp_all
    simp [DList.linkOnly]

theorem Spells.linkBefore (h : d.Spells (pre ++ post)) (hb : b ∉ pre ++ post) {t : α}
    (ht : post.head? = some t) : (d.linkBefore b t).Spells (pre ++ b :: post) := by
  have hprev := h.prev_head ht
  have hfirst := h.first
  have hlast := h.last
  obtain ⟨rest, rfl⟩ := head?_eq_some_iff.mp ht
  have hne : t ≠ b := fun heq => hb (heq ▸ by simp)
  have hpre : pre.getLast? ≠ some b := fun hl => hb (mem_append_left _ (mem_of_getLast? hl))
  have hnodup : (pre ++ b :: t :: rest).Nodup := nodup_middle.mpr (nodup_cons.mpr ⟨hb, h.nodup⟩)
  rw [← append_nil pre] at h
  rw [append_cons] at hnodup ⊢
  rw [linkBefore_eq hne]
  refine h.spliced hnodup ?_ ?_ (fun front a rest' heq => ?_) (fun a ha => ?_) fun a ha => ?_
  · rw [hprev, hfirst]
    cases pre <;> simp
  · rw [hlast]
    simp [getLast?_append, getLast?_cons]
  · obtain ⟨rfl, rfl, rfl⟩ : front = [] ∧ a = b ∧ rest' = [] := by
      cases front <;> simp_all
    simp [hprev, hpre, hne.symm]
  · simp [hprev, ne_of_mem_of_not_mem ha hb]
  · simp [ne_of_mem_of_not_mem ha hb, eq_comm]

theorem Spells.linkFront (h : d.Spells post) (hb : b ∉ post) : (d.linkFront b).Spells (b :: post) := by
  have hfirst := h.first
  cases post with
  | nil =>
    have hempty : d.linkFront b = d.linkOnly b := by
      simp_all [DList.linkFront, DList.linkOnly, setNext, setPrev, setFirst, setLast]
    exact hempty ▸ spells_linkOnly d b
  | cons t post =>
    have hne : t ≠ b := fun heq => hb (heq ▸ .head _)
    rw [linkFront_eq hfirst (h.links [] t post rfl).2 hne]
    exact (show d.Spells ([] ++ t :: post) from h).linkBefore hb rfl

theorem Spells.linkAfter (h : d.Spells (pre ++ post)) (hb : b ∉ pre ++ post) {t : α}
    (ht : pre.getLast? = some t) : (d.linkAfter b t).Spells (pre ++ b :: post) := by
  obtain ⟨hne, hn⟩ := h.next_ne hb ht
  have hflip := h.flip
  rw [reverse_append] at hflip
  have hspells := (hflip.linkBefore (b := b) (by simpa [and_comm] using hb) (by rwa [head?_reverse])).flip
  rw [flip_linkBefore hne hn] at hspells
  simpa using hspells

theorem Spells.linkEnd (h : d.Spells pre) (hb : b ∉ pre) {t : α} (ht : pre.getLast? = some t) :
    (d.linkEnd b t).Spells (pre ++ [b]) := by
  rw [← append_nil pre] at h hb
  rw [linkEnd_eq (h.next_last ht) (h.next_ne hb ht).1]
  exact h.linkAfter hb ht

theorem Spells.unlink (h : d.Spells (pre ++ b :: post)) : (d.unlink b).Spells (pre ++ post) := by
  obtain ⟨hnext, hprev⟩ := h.links pre b post rfl
  have hfirst := h.first
  have hlast := h.last
  have hb : b ∉ pre ++ post := (nodup_cons.mp (nodup_middle.mp h.nodup)).1
  have hp : ∀ p, d.prev b = some p → b ≠ p := by
    rintro p hp rfl
    rw [hprev] at hp
    exact hb (mem_append_left _ (mem_of_getLast? hp))
  have hnodup : (pre ++ [] ++ post).Nodup := by
    rw [append_nil]
    exact (nodup_cons.mp (nodup_middle.mp h.nodup)).2
  rw [append_cons] at h
  rw [← append_nil pre]
  rw [unlink_eq hp]
  refine h.spliced hnodup ?_ ?_ (fun front a rest heq => by simp at heq) (fun a ha => ?_) fun a ha => ?_
  · rw [hprev, hfirst, hnext]
    cases pre <;> simp
  · rw [hprev, hlast, hnext]
    cases post <;> simp [getLast?_append, getLast?_cons]
  · simp [hprev, hnext, ne_of_mem_of_not_mem ha hb]
  · simp [hprev, hnext, ne_of_mem_of_not_mem ha hb]

theorem Spells.unlinkFirst (h : d.Spells (b :: post)) : (d.unlinkFirst b).Spells post := by
  rw [unlinkFirst_eq (h.links [] b post rfl).2]
  exact (show d.Spells ([] ++ b :: post) from h).unlink

/-! ### What the operations leave alone -/

section

variable {xs : List α} {t : α}

theorem agreeOff_linkOnly (b : α) : AgreeOff d (d.linkOnly b) [b] := by
  intro a ha
  have hne : a ≠ b := fun heq => ha (heq ▸ (.head _))
  simp [DList.linkOnly, hne]

theorem agreeOff_linkEnd (ht : t ∈ xs) : AgreeOff d (d.linkEnd b t) (b :: xs) := by
  intro a ha
  have hne : a ≠ b := fun heq => ha (heq ▸ (.head _))
  have hne' : a ≠ t := fun heq => ha (heq ▸ .tail _ ht)
  simp [DList.linkEnd, hne, hne']

theorem Spells.agreeOff_linkFront (h : d.Spells xs) : AgreeOff d (d.linkFront b) (b :: xs) := by
  intro a ha
  have hfirst := h.first
  have hne : a ≠ b := fun heq => ha (heq ▸ (.head _))
  cases xs with
  | nil =>
    rw [head?_nil] at hfirst
    simp [DList.linkFront, hfirst, hne]
  | cons c xs =>
    rw [head?_cons] at hfirst
    have hne' : a ≠ c := fun heq => ha (by simp [heq])
    simp [DList.linkFront, hfirst, hne, hne']

theorem Spells.agreeOff_linkBefore (h : d.Spells (pre ++ post)) (hb : b ∉ pre ++ post)
    (ht : post.head? = some t) : AgreeOff d (d.linkBefore b t) (b :: (pre ++ post)) := by
  intro a ha
  obtain ⟨hne, hin⟩ := not_or.mp (mem_cons.not.mp ha)
  have htin : t ∈ pre ++ post := mem_append_right _ (mem_of_head? ht)
  have htb : t ≠ b := fun heq => hb (heq ▸ htin)
  have hprev : d.prev t ≠ some a := fun hp => by
    rw [h.prev_head ht] at hp
    exact hin (mem_append_left _ (mem_of_getLast? hp))
  have hat : a ≠ t := fun heq => hin (heq ▸ htin)
  simp [linkBefore_eq htb, hprev, hne, hat]

theorem Spells.agreeOff_linkAfter (h : d.Spells (pre ++ post)) (hb : b ∉ pre ++ post)
    (ht : pre.getLast? = some t) : AgreeOff d (d.linkAfter b t) (b :: (pre ++ post)) := by
  intro a ha
  obtain ⟨hne, hn⟩ := h.next_ne hb ht
  have hflip := h.flip
  rw [reverse_append] at hflip
  rw [← flip_linkBefore hne hn]
  refine (hflip.agreeOff_linkBefore (by simpa [and_comm] using hb) (by rwa [head?_reverse]) a ?_).symm
  simpa [and_comm] using ha

end

end DList

end Svr42
