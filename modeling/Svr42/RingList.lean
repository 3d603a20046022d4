import Mathlib.Data.List.Nodup

/-! Circular doubly linked lists: every cell has a next and a previous link, and following either
leads round. The cells of a ring are listed from a head, which may be any of them. -/

namespace Svr42
open Function List Option

variable {Ptr : Type*} {next prev next' prev' : Ptr → Ptr} {a b c h p : Ptr}
  {cells front back : List Ptr}

/-- Forwards and backwards, the way from `a` to `b` leads over `cells`. -/
def Arc (next prev : Ptr → Ptr) : Ptr → List Ptr → Ptr → Prop
  | a, [], b => next a = b ∧ prev b = a
  | a, c :: rest, b => (next a = c ∧ prev c = a) ∧ Arc next prev c rest b

/-- `cells` lie on the ring of `h` behind it. -/
structure Ring (next prev : Ptr → Ptr) (h : Ptr) (cells : List Ptr) : Prop where
  arc : Arc next prev h cells h
  nodup : (h :: cells).Nodup

/-- The walk along the links from `p` to the first cell that meets the test, or, in vain, to `h`. -/
def scan [DecidableEq Ptr] (next : Ptr → Ptr) (h : Ptr) (test : Ptr → Prop) [DecidablePred test] :
    Nat → Ptr → Option (Option Ptr)
  | 0, _ => none
  | fuel + 1, p =>
      if p = h then some none
      else if test p then some (some p)
      else scan next h test fuel (next p)

theorem scan_congr [DecidableEq Ptr] {test test' : Ptr → Prop} [DecidablePred test] [DecidablePred test']
    (htest : ∀ p, test p ↔ test' p) (fuel : Nat) (p : Ptr) :
    scan next h test fuel p = scan next h test' fuel p := by
  induction fuel generalizing p with
  | zero => rfl
  | succ fuel ih => rw [scan, scan, ih, if_congr (htest p) rfl rfl]

namespace Arc

theorem append : Arc next prev a (front ++ c :: back) b ↔
    Arc next prev a front c ∧ Arc next prev c back b := by
  induction front generalizing a with
  | nil => exact .rfl
  | cons x front ih =>
    rw [cons_append, Arc, Arc, ih, and_assoc (a := _ ∧ _)]

theorem congr (h : Arc next prev a cells b) (hnext : ∀ x ∈ a :: cells, next' x = next x)
    (hprev : ∀ x ∈ cells ++ [b], prev' x = prev x) : Arc next' prev' a cells b := by
  induction cells generalizing a with
  | nil =>
    constructor
    · rw [hnext a (mem_singleton_self a)]
      exact h.1
    · rw [hprev b (mem_singleton_self b)]
      exact h.2
  | cons c rest ih =>
    refine ⟨⟨?_, ?_⟩, ih h.2 (fun x hx => hnext x (.tail a hx)) fun x hx => hprev x (.tail c hx)⟩
    · rw [hnext a mem_cons_self]
      exact h.1.1
    · rw [hprev c mem_cons_self]
      exact h.1.2

theorem next_eq (h : Arc next prev a cells b) : next a = cells.headD b := by
  cases cells with
  | nil => exact h.1
  | cons c rest => exact h.1.1

theorem prev_eq (h : Arc next prev a cells b) : prev b = cells.getLastD a := by
  rcases eq_nil_or_concat cells with rfl | ⟨front, c, rfl⟩
  · exact h.2
  · rw [concat_eq_append, append] at h
    rw [concat_eq_append, getLastD_concat]
    exact h.2.2

end Arc

namespace Ring

theorem rotate (h : Ring next prev a (front ++ c :: back)) : Ring next prev c (back ++ a :: front) := by
  have harc := Arc.append.mp h.arc
  refine ⟨Arc.append.mpr ⟨harc.2, harc.1⟩, ?_⟩
  have hperm : (a :: (front ++ c :: back)).Perm (c :: (back ++ a :: front)) := by
    rw [← cons_append, ← cons_append]
    exact perm_append_comm
  exact hperm.nodup_iff.mp h.nodup

theorem congr (h : Ring next prev a cells) (hnext : ∀ x ∈ a :: cells, next' x = next x)
    (hprev : ∀ x ∈ a :: cells, prev' x = prev x) : Ring next' prev' a cells := by
  refine ⟨h.arc.congr hnext fun x hx => hprev x ?_, h.nodup⟩
  rcases mem_append.mp hx with hcells | ha
  · exact .tail a hcells
  · rw [mem_singleton.mp ha]
    exact .head _

theorem next_mem (h : Ring next prev a cells) (hp : p ∈ a :: cells) : next p ∈ a :: cells := by
  rcases mem_cons.mp hp with rfl | hcells
  · rw [h.arc.next_eq]
    cases cells with
    | nil => exact .head _
    | cons c rest => exact .tail _ (.head _)
  · obtain ⟨front, back, rfl⟩ := append_of_mem hcells
    rw [h.rotate.arc.next_eq]
    cases back with
    | nil => exact .head _
    | cons c rest => simp

theorem prev_mem (h : Ring next prev a cells) (hp : p ∈ a :: cells) : prev p ∈ a :: cells := by
  have hlast : ∀ {x : Ptr} {xs : List Ptr}, xs.getLastD x ∈ x :: xs := by
    intro x xs
    rcases eq_nil_or_concat xs with rfl | ⟨front, c, rfl⟩
    · exact .head _
    · rw [concat_eq_append, getLastD_concat]
      simp
  rcases mem_cons.mp hp with rfl | hcells
  · rw [h.arc.prev_eq]
    exact hlast
  obtain ⟨front, back, rfl⟩ := append_of_mem hcells
  have hrotate := h.rotate
  rw [hrotate.arc.prev_eq]
  have hmem : (back ++ a :: front).getLastD p ∈ p :: (back ++ a :: front) := hlast
  have hperm : (p :: (back ++ a :: front)).Perm (a :: (front ++ p :: back)) := by
    rw [← cons_append, ← cons_append]
    exact perm_append_comm
  exact hperm.mem_iff.mp hmem

theorem prev_ne (h : Ring next prev a cells) (hp : p ∈ cells) : prev p ≠ p := by
  obtain ⟨front, back, rfl⟩ := append_of_mem hp
  have hrotate := h.rotate
  intro hself
  have hlast : (back ++ a :: front).getLastD p ∈ back ++ a :: front := by
    rw [getLastD_eq_getLast?, getLast?_eq_some_getLast (by simp)]
    exact getLast_mem _
  rw [← hrotate.arc.prev_eq, hself] at hlast
  exact (nodup_cons.mp hrotate.nodup).1 hlast

theorem next_prev (h : Ring next prev a cells) (hp : p ∈ a :: cells) : next (prev p) = p := by
  have hfrom : ∀ {c : Ptr} {rest : List Ptr}, Ring next prev c rest → next (prev c) = c := by
    intro c rest hring
    rcases eq_nil_or_concat rest with rfl | ⟨front, last, rfl⟩
    · rw [hring.arc.2, hring.arc.1]
    · rw [concat_eq_append] at hring
      have harc := (Arc.append.mp hring.arc).2
      rw [harc.2, harc.1]
  rcases mem_cons.mp hp with rfl | hcells
  · exact hfrom h
  · obtain ⟨front, back, rfl⟩ := append_of_mem hcells
    exact hfrom h.rotate

variable [DecidableEq Ptr]

/-- A cell linked in between `a` and the cell before it, the last one. -/
theorem snoc (h : Ring next prev a cells) (hp : p ∉ a :: cells) :
    Ring (update (update next p a) (prev a) p)
      (update (update prev p (prev a)) a p) a (cells ++ [p]) := by
  have hpa : p ≠ a := fun heq => hp (heq ▸ (.head _))
  have hpcells : p ∉ cells := fun hmem => hp (.tail a hmem)
  have hnodup : (a :: (cells ++ [p])).Nodup := by
    have hperm : (a :: (cells ++ [p])).Perm (p :: a :: cells) := by
      rw [← cons_append]
      exact perm_append_singleton p (a :: cells)
    exact hperm.nodup_iff.mpr (nodup_cons.mpr ⟨hp, h.nodup⟩)
  refine ⟨?_, hnodup⟩
  rw [Arc.append]
  rcases eq_nil_or_concat cells with rfl | ⟨front, q, rfl⟩
  · rw [show prev a = a from h.arc.2]
    refine ⟨⟨update_self _ _ _, ?_⟩, ⟨?_, update_self _ _ _⟩⟩
    · rw [update_of_ne hpa, update_self]
    · rw [update_of_ne hpa, update_self]
  rw [concat_eq_append] at h hp hpcells ⊢
  have hq : prev a = q := by
    rw [h.arc.prev_eq, getLastD_concat]
  have hpq : p ≠ q := fun heq => hpcells (heq ▸ by simp)
  have harc := Arc.append.mp h.arc
  have hdistinct := nodup_cons.mp h.nodup
  have hqa : q ≠ a := fun heq => hdistinct.1 (heq ▸ by simp)
  have hqfront : q ∉ front := fun hmem =>
    (nodup_append.mp hdistinct.2).2.2 q hmem q (mem_singleton_self q) rfl
  rw [hq]
  refine ⟨Arc.append.mpr ⟨harc.1.congr (fun x hx => ?_) fun x hx => ?_,
    ⟨update_self _ _ _, ?_⟩⟩, ⟨?_, update_self _ _ _⟩⟩
  · have hxq : x ≠ q := by
      rintro rfl
      rcases mem_cons.mp hx with heq | hmem
      · exact hqa heq
      · exact hqfront hmem
    have hxp : x ≠ p := by
      rintro rfl
      rcases mem_cons.mp hx with heq | hmem
      · exact hpa heq
      · exact hpcells (mem_append_left _ hmem)
    rw [update_of_ne hxq, update_of_ne hxp]
  · have hxa : x ≠ a := fun heq => hdistinct.1 (heq ▸ hx)
    have hxp : x ≠ p := fun heq => hpcells (heq ▸ hx)
    rw [update_of_ne hxa, update_of_ne hxp]
  · rw [update_of_ne hpa, update_self]
  · rw [update_of_ne hpq, update_self]

theorem insert (h : Ring next prev a (front ++ c :: back)) (hp : p ∉ a :: (front ++ c :: back)) :
    Ring (update (update next p c) (prev c) p)
      (update (update prev p (prev c)) c p) a (front ++ p :: c :: back) := by
  have hp' : p ∉ c :: (back ++ a :: front) := by
    intro hmem
    have hperm : (c :: (back ++ a :: front)).Perm (a :: (front ++ c :: back)) := by
      rw [← cons_append, ← cons_append]
      exact perm_append_comm
    exact hp (hperm.mem_iff.mp hmem)
  have hsnoc := h.rotate.snoc hp'
  rw [append_assoc, cons_append] at hsnoc
  have hback := hsnoc.rotate
  rwa [append_assoc, singleton_append] at hback

theorem push (h : Ring next prev a cells) (hp : p ∉ a :: cells) :
    Ring (update (update next p (next a)) a p) (update (update prev p a) (next a) p) a (p :: cells) := by
  cases cells with
  | nil =>
    have hsnoc := h.snoc hp
    have hnext : next a = a := h.arc.1
    have hprev : prev a = a := h.arc.2
    rw [hprev] at hsnoc
    rw [hnext]
    exact hsnoc
  | cons c rest =>
    have hnext : next a = c := h.arc.1.1
    have hprev : prev c = a := h.arc.1.2
    have hinsert := insert (show Ring next prev a ([] ++ c :: rest) from h) hp
    rw [hprev] at hinsert
    rw [hnext]
    exact hinsert

/-- A cell linked past by its neighbours, in the ring they stay in. -/
theorem tail (h : Ring next prev p (c :: cells)) :
    Ring (update next (prev p) (next p)) (update prev (next p) (prev p)) c cells := by
  have hnext : next p = c := h.arc.1.1
  have hdistinct := (nodup_cons.mp h.nodup).2
  have hprev := h.arc.2.prev_eq
  refine ⟨?_, hdistinct⟩
  rw [hnext]
  rcases eq_nil_or_concat cells with rfl | ⟨front, q, rfl⟩
  · rw [show prev p = c from hprev]
    exact ⟨update_self _ _ _, update_self _ _ _⟩
  rw [concat_eq_append] at h hdistinct hprev ⊢
  rw [getLastD_concat] at hprev
  have harc := Arc.append.mp h.arc.2
  have hc := (nodup_cons.mp hdistinct).1
  have hqfront : q ∉ front := fun hmem =>
    (nodup_append.mp (nodup_cons.mp hdistinct).2).2.2 q hmem q (mem_singleton_self q) rfl
  rw [hprev]
  refine Arc.append.mpr ⟨harc.1.congr (fun x hx => ?_) fun x hx => ?_,
    ⟨update_self _ _ _, update_self _ _ _⟩⟩
  · refine update_of_ne ?_ _ _
    rintro rfl
    rcases mem_cons.mp hx with heq | hmem
    · exact hc (heq ▸ by simp)
    · exact hqfront hmem
  · refine update_of_ne ?_ _ _
    rintro rfl
    exact hc hx

theorem remove (h : Ring next prev a (front ++ p :: back)) :
    Ring (update next (prev p) (next p)) (update prev (next p) (prev p)) a (front ++ back) := by
  have hrotate := h.rotate
  cases back with
  | nil =>
    rw [append_nil]
    exact hrotate.tail
  | cons c back => exact hrotate.tail.rotate

/-- A walk from the head finds the first cell that meets the test. -/
theorem scan_eq {test : Ptr → Prop} [DecidablePred test] {fuel : Nat} (h : Ring next prev a cells)
    (hfuel : cells.length < fuel) :
    scan next a test fuel (next a) = some (cells.find? fun p => test p) := by
  have hwalk : ∀ (rest : List Ptr) (x : Ptr) (fuel : Nat), Arc next prev x rest a → a ∉ rest →
      rest.length < fuel → scan next a test fuel (next x) = some (rest.find? fun p => test p) := by
    intro rest
    induction rest with
    | nil =>
      intro x fuel harc _ hfuel
      obtain ⟨fuel, rfl⟩ := Nat.exists_eq_succ_of_ne_zero (Nat.ne_of_gt hfuel)
      rw [scan, if_pos harc.1, find?_nil]
    | cons c rest ih =>
      intro x fuel harc ha hfuel
      obtain ⟨fuel, rfl⟩ := Nat.exists_eq_succ_of_ne_zero (Nat.ne_of_gt (Nat.zero_lt_of_lt hfuel))
      rw [length_cons] at hfuel
      rw [mem_cons, not_or] at ha
      rw [harc.1.1, scan, if_neg (Ne.symm ha.1)]
      split_ifs with htest
      · rw [find?_cons_of_pos (by simpa using htest)]
      · rw [find?_cons_of_neg (by simpa using htest)]
        exact ih c fuel harc.2 ha.2 (Nat.lt_of_succ_lt_succ hfuel)
  exact hwalk cells a fuel h.arc (nodup_cons.mp h.nodup).1 hfuel

end Ring

theorem erase_split [DecidableEq Ptr] (h : (front ++ p :: back).Nodup) :
    (front ++ p :: back).erase p = front ++ back := by
  rw [perm_middle.nodup_iff, nodup_cons] at h
  rw [erase_append_right _ fun hf => h.1 (mem_append_left _ hf), erase_cons_head]

/-- Rings that have no cell in common. -/
structure Rings {ι : Type*} (next prev : Ptr → Ptr) (head : ι → Ptr) (chains : ι → List Ptr) :
    Prop where
  ring : ∀ i, Ring next prev (head i) (chains i)
  apart : ∀ i j x, x ∈ head i :: chains i → x ∈ head j :: chains j → i = j

namespace Rings

variable {ι : Type*} {head : ι → Ptr} {chains : ι → List Ptr} {i : ι}

def Off (head : ι → Ptr) (chains : ι → List Ptr) (p : Ptr) : Prop := ∀ j, p ∉ head j :: chains j

variable [DecidableEq ι]

/-- One ring is changed, by a cell that no other has. -/
theorem edit (h : Rings next prev head chains) (hp : p ∈ chains i ∨ Off head chains p)
    (hring : Ring next' prev' (head i) cells) (hcells : ∀ x ∈ cells, x ∈ chains i ∨ x = p)
    (hnext : ∀ x, x ∉ head i :: chains i → x ≠ p → next' x = next x)
    (hprev : ∀ x, x ∉ head i :: chains i → x ≠ p → prev' x = prev x) :
    Rings next' prev' head (update chains i cells) := by
  -- a cell of another ring is neither in this one nor the new one
  have hother : ∀ j, j ≠ i → ∀ x ∈ head j :: chains j, x ∉ head i :: chains i ∧ x ≠ p := by
    intro j hj x hx
    refine ⟨fun hi => hj (h.apart j i x hx hi), ?_⟩
    rintro rfl
    rcases hp with hmem | hoff
    · exact hj (h.apart j i x hx (.tail _ hmem))
    · exact hoff j hx
  have hmine : ∀ x ∈ head i :: cells, x ∈ head i :: chains i ∨ x = p := by
    intro x hx
    rcases mem_cons.mp hx with rfl | hx
    · exact .inl (.head _)
    · exact (hcells x hx).imp (.tail _) id
  constructor
  · intro j
    by_cases hj : j = i
    · rw [hj, update_self]
      exact hring
    · rw [update_of_ne hj]
      exact (h.ring j).congr (fun x hx => hnext x (hother j hj x hx).1 (hother j hj x hx).2)
        fun x hx => hprev x (hother j hj x hx).1 (hother j hj x hx).2
  · have hone : ∀ j x, j ≠ i → x ∈ head i :: cells → x ∉ head j :: chains j := by
      intro j x hj hx hmem
      obtain ⟨hnot, hne⟩ := hother j hj x hmem
      rcases hmine x hx with hold | hnew
      · exact hnot hold
      · exact hne hnew
    intro j j' x hj hj'
    by_cases hji : j = i
    · by_cases hji' : j' = i
      · rw [hji, hji']
      · rw [hji, update_self] at hj
        rw [update_of_ne hji'] at hj'
        exact absurd hj' (hone j' x hji' hj)
    · rw [update_of_ne hji] at hj
      by_cases hji' : j' = i
      · rw [hji', update_self] at hj'
        exact absurd hj (hone j x hji hj')
      · rw [update_of_ne hji'] at hj'
        exact h.apart j j' x hj hj'

variable [DecidableEq Ptr]

/-- A cell taken out, of its ring or of none when it is linked to itself. -/
theorem erase (h : Rings next prev head chains)
    (hp : (∃ i, p ∈ chains i) ∨ (next p = p ∧ prev p = p) ∧ Off head chains p) :
    Rings (update next (prev p) (next p)) (update prev (next p) (prev p)) head
        (fun i => (chains i).erase p) ∧
      Off head (fun i => (chains i).erase p) p ∧
      ∀ x, x ≠ p → Off head chains x →
        update next (prev p) (next p) x = next x ∧
        update prev (next p) (prev p) x = prev x := by
  rcases hp with ⟨i, hp⟩ | ⟨⟨hnext, hprev⟩, hoff⟩
  · have hring := h.ring i
    have hmem : p ∈ head i :: chains i := .tail _ hp
    obtain ⟨front, back, hsplit⟩ := append_of_mem hp
    have hnodup := (nodup_cons.mp hring.nodup).2
    have herase : (chains i).erase p = front ++ back := by
      rw [hsplit] at hnodup ⊢
      exact erase_split hnodup
    have hothers : (fun j => (chains j).erase p) = update chains i (front ++ back) := by
      funext j
      by_cases hj : j = i
      · rw [hj, update_self, herase]
      rw [update_of_ne hj]
      apply erase_of_not_mem
      intro hpj
      exact hj (h.apart j i p (.tail _ hpj) hmem)
    have hprev' : ∀ x, x ∉ head i :: chains i → x ≠ next p := by
      rintro x hx rfl
      exact hx (hring.next_mem hmem)
    have hnext' : ∀ x, x ∉ head i :: chains i → x ≠ prev p := by
      rintro x hx rfl
      exact hx (hring.prev_mem hmem)
    refine ⟨?_, ?_, ?_⟩
    · rw [hothers]
      rw [hsplit] at hring
      refine h.edit (.inl hp) hring.remove (fun x hx => .inl ?_)
        (fun x hx _ => update_of_ne (hnext' x hx) _ _)
        fun x hx _ => update_of_ne (hprev' x hx) _ _
      rw [hsplit]
      rcases mem_append.mp hx with hf | hb
      · exact mem_append_left _ hf
      · exact mem_append_right _ (.tail _ hb)
    · intro j hj
      rcases mem_cons.mp hj with heq | hpj
      · have hij : j = i := h.apart j i p (heq ▸ (.head _)) hmem
        rw [hij] at heq
        exact (nodup_cons.mp hring.nodup).1 (heq ▸ hp)
      · have hij : j = i := h.apart j i p (.tail _ (mem_of_mem_erase hpj)) hmem
        rw [hij] at hpj
        exact hnodup.not_mem_erase hpj
    · intro x _ hx
      exact ⟨update_of_ne (hnext' x (hx i)) _ _, update_of_ne (hprev' x (hx i)) _ _⟩
  · have hsame : (fun i => (chains i).erase p) = chains := by
      funext j
      apply erase_of_not_mem
      intro hpj
      exact hoff j (.tail _ hpj)
    have hn : update next (prev p) (next p) = next := by
      rw [hprev]
      exact update_eq_self p next
    have hpr : update prev (next p) (prev p) = prev := by
      rw [hnext]
      exact update_eq_self p prev
    rw [hsame, hn, hpr]
    exact ⟨h, hoff, fun x _ _ => ⟨rfl, rfl⟩⟩

theorem push (h : Rings next prev head chains) (hp : Off head chains p) (i : ι) :
    Rings (update (update next p (next (head i))) (head i) p)
        (update (update prev p (head i)) (next (head i)) p) head
        (update chains i (p :: chains i)) ∧
      ∀ x, x ≠ p → Off head chains x →
        update (update next p (next (head i))) (head i) p x = next x ∧
        update (update prev p (head i)) (next (head i)) p x = prev x := by
  have hring := h.ring i
  have hframe : ∀ x, x ∉ head i :: chains i → x ≠ p →
      update (update next p (next (head i))) (head i) p x = next x ∧
      update (update prev p (head i)) (next (head i)) p x = prev x := by
    intro x hx hne
    have hhead : x ≠ head i := fun heq => hx (heq ▸ (.head _))
    have hnext : x ≠ next (head i) := by
      rintro rfl
      exact hx (hring.next_mem (.head _))
    rw [update_of_ne hhead, update_of_ne hne, update_of_ne hnext, update_of_ne hne]
    exact ⟨rfl, rfl⟩
  refine ⟨h.edit (.inr hp) (hring.push (hp i)) (fun x hx => ?_) (fun x hx hne => (hframe x hx hne).1)
    fun x hx hne => (hframe x hx hne).2, fun x hne hx => hframe x (hx i) hne⟩
  exact (mem_cons.mp hx).symm

/-- A cell put in front of another. -/
theorem insert (h : Rings next prev head chains) (hp : Off head chains p)
    (hsplit : chains i = front ++ c :: back) :
    Rings (update (update next p c) (prev c) p) (update (update prev p (prev c)) c p) head
        (update chains i (front ++ p :: c :: back)) ∧
      ∀ x, x ≠ p → Off head chains x →
        update (update next p c) (prev c) p x = next x ∧
        update (update prev p (prev c)) c p x = prev x := by
  have hring := h.ring i
  have hc : c ∈ head i :: chains i := by
    rw [hsplit]
    simp
  have hframe : ∀ x, x ∉ head i :: chains i → x ≠ p →
      update (update next p c) (prev c) p x = next x ∧
      update (update prev p (prev c)) c p x = prev x := by
    intro x hx hne
    have hxc : x ≠ c := fun heq => hx (heq ▸ hc)
    have hprev : x ≠ prev c := by
      rintro rfl
      exact hx (hring.prev_mem hc)
    rw [update_of_ne hprev, update_of_ne hne, update_of_ne hxc, update_of_ne hne]
    exact ⟨rfl, rfl⟩
  have hpi := hp i
  rw [hsplit] at hring hpi
  refine ⟨h.edit (.inr hp) (hring.insert hpi) (fun x hx => ?_) (fun x hx hne => (hframe x hx hne).1)
    fun x hx hne => (hframe x hx hne).2, fun x hne hx => hframe x (hx i) hne⟩
  rw [hsplit]
  rcases mem_append.mp hx with hf | hb
  · exact .inl (mem_append_left _ hf)
  · rcases mem_cons.mp hb with heq | hb
    · exact .inr heq
    · exact .inl (mem_append_right _ hb)

end Rings

def Circle (next prev : Ptr → Ptr) : List Ptr → Prop
  | [] => True
  | h :: rest => Ring next prev h rest

namespace Circle

theorem nodup (h : Circle next prev cells) : cells.Nodup := by
  cases cells with
  | nil => exact nodup_nil
  | cons c rest => exact h.nodup

theorem seen (h : Circle next prev (front ++ p :: back)) : Ring next prev p (back ++ front) := by
  cases front with
  | nil =>
    rw [append_nil]
    exact h
  | cons c front => exact h.rotate

theorem of_ring (h : Ring next prev p (back ++ front)) : Circle next prev (front ++ p :: back) := by
  cases front with
  | nil =>
    rw [append_nil] at h
    exact h
  | cons c front => exact h.rotate

theorem next_eq (h : Circle next prev (front ++ p :: back)) : next p = (back ++ front).headD p :=
  h.seen.arc.next_eq

theorem prev_eq (h : Circle next prev (front ++ p :: back)) : prev p = (back ++ front).getLastD p :=
  h.seen.arc.prev_eq

theorem next_mem (h : Circle next prev cells) (hp : p ∈ cells) : next p ∈ cells := by
  cases cells with
  | nil => cases hp
  | cons c rest => exact Ring.next_mem h hp

theorem prev_mem (h : Circle next prev cells) (hp : p ∈ cells) : prev p ∈ cells := by
  cases cells with
  | nil => cases hp
  | cons c rest => exact Ring.prev_mem h hp

theorem next_cases (h : Circle next prev (front ++ p :: back))
    (hhead : (front ++ p :: back).head? = some a) :
    (next p = a ∧ back = []) ∨ ∃ c rest, back = c :: rest ∧ next p = c ∧ c ≠ a := by
  have hnext := h.next_eq
  cases back with
  | nil =>
    refine .inl ⟨?_, rfl⟩
    rw [hnext, nil_append]
    cases front with
    | nil => exact some.inj hhead
    | cons x front => exact some.inj hhead
  | cons c rest =>
    refine .inr ⟨c, rest, rfl, hnext, ?_⟩
    rintro rfl
    have hnodup := h.nodup
    cases front with
    | nil =>
      rw [some.inj hhead] at hnodup
      exact (nodup_cons.mp hnodup).1 (.head _)
    | cons x front =>
      rw [show x = c from some.inj hhead] at hnodup
      exact (nodup_cons.mp hnodup).1 (by simp)

theorem alone (h : Circle next prev (front ++ p :: back)) : next p = p ↔ front ++ back = [] := by
  have hring := h.seen
  rw [hring.arc.next_eq, append_eq_nil_iff]
  constructor
  · intro hnext
    cases hcells : back ++ front with
    | nil => exact (append_eq_nil_iff.mp hcells).symm
    | cons c rest =>
      rw [hcells] at hnext hring
      rw [headD_cons] at hnext
      rw [hnext] at hring
      exact absurd (.head _) (nodup_cons.mp hring.nodup).1
  · rintro ⟨rfl, rfl⟩
    rfl

variable [DecidableEq Ptr]

/-- A cell put in between `front` and `back`: it is linked in before the cell that comes after it,
which is the first one of all if `back` has none. -/
theorem insert (h : Circle next prev (front ++ back)) (hp : p ∉ front ++ back)
    (hc : (back ++ front).head? = some c) : Circle (update (update next p c) (prev c) p)
      (update (update prev p (prev c)) c p) (front ++ p :: back) := by
  obtain ⟨rest, hrest⟩ := head?_eq_some_iff.mp hc
  have hring : Ring next prev c rest := by
    cases back with
    | nil =>
      rw [nil_append] at hrest
      rw [append_nil, hrest] at h
      exact h
    | cons x back =>
      rw [cons_append, cons.injEq] at hrest
      rw [← hrest.1, ← hrest.2]
      exact h.seen
  have hp' : p ∉ c :: rest := by
    rw [← hrest]
    exact fun hmem => hp (perm_append_comm.mem_iff.mp hmem)
  have hsnoc := (hring.snoc hp').rotate
  rw [nil_append, ← hrest] at hsnoc
  exact of_ring hsnoc

theorem remove (h : Circle next prev (front ++ p :: back)) (hne : front ++ back ≠ []) :
    Circle (update next (prev p) (next p)) (update prev (next p) (prev p)) (front ++ back) := by
  have hring := h.seen
  cases back with
  | nil =>
    cases front with
    | nil => exact absurd rfl hne
    | cons c front =>
      rw [append_nil]
      exact hring.tail
  | cons c back => exact of_ring hring.tail

end Circle

end Svr42
