import Mathlib.Data.List.Basic

/-! Singly linked lists in a heap. A cell carries a payload and the pointer to the next cell; a chain
from a pointer spells the cells it leads through. Appending at the tail and unlinking a cell are
the two updates, and a write outside a chain leaves it alone. -/

namespace Svr42
open Function List Prod

variable {Ptr Cell Val : Type*}

/-- `Chain heap val next start cells`: following `next` from `start` visits exactly `cells` and ends
in a null pointer. -/
inductive Chain (heap : Ptr → Option Cell) (val : Cell → Val) (next : Cell → Option Ptr) :
    Option Ptr → List (Ptr × Val) → Prop
  | nil : Chain heap val next none []
  | cons {p : Ptr} {cell : Cell} {rest : List (Ptr × Val)} :
      heap p = some cell → Chain heap val next (next cell) rest →
      Chain heap val next (some p) ((p, val cell) :: rest)

namespace Chain

variable {heap heap' : Ptr → Option Cell} {val : Cell → Val} {next : Cell → Option Ptr}
  {start : Option Ptr} {cells : List (Ptr × Val)}

theorem eq_nil (h : Chain heap val next none cells) : cells = [] := by
  cases h
  rfl

theorem start_eq_none (h : Chain heap val next start []) : start = none := by
  cases h
  rfl

variable {p : Ptr} {v : Val}

theorem single {cell : Cell} (hcell : heap p = some cell) (hval : val cell = v)
    (hnext : next cell = none) : Chain heap val next (some p) [(p, v)] := by
  rw [← hval]
  refine Chain.cons hcell ?_
  rw [hnext]
  exact Chain.nil

theorem cell_exists (h : Chain heap val next start cells) {x : Ptr × Val} (hx : x ∈ cells) :
    ∃ cell, heap x.1 = some cell ∧ val cell = x.2 := by
  induction h with
  | nil => exact absurd hx (not_mem_nil)
  | cons hcell _ ih =>
    rcases mem_cons.mp hx with rfl | hx
    · exact ⟨_, hcell, rfl⟩
    · exact ih hx

theorem congr (h : Chain heap val next start cells) (hagree : ∀ x ∈ cells, heap' x.1 = heap x.1) :
    Chain heap' val next start cells := by
  induction h with
  | nil => exact Chain.nil
  | cons hcell _ ih =>
    refine Chain.cons ?_ (ih fun x hx => hagree x (.tail _ hx))
    rw [← hcell]
    exact hagree _ (.head _)

theorem drop {front back : List (Ptr × Val)} (h : Chain heap val next start (front ++ back)) :
    ∃ start', Chain heap val next start' back := by
  induction front generalizing start with
  | nil => exact ⟨start, h⟩
  | cons x front ih =>
    cases h with
    | cons _ hrest => exact ih hrest

variable [DecidableEq Ptr]

theorem update_of_notMem (h : Chain heap val next start cells) {cell : Option Cell}
    (hp : p ∉ cells.map fst) : Chain (update heap p cell) val next start cells := by
  refine h.congr fun x hx => update_of_ne ?_ _ _
  rintro rfl
  exact hp (mem_map_of_mem hx)

/-- Redirecting a cell of a chain to the start of another one replaces what came after it. -/
theorem splice {front old back : List (Ptr × Val)} {start' : Option Ptr} {cell' : Cell}
    (h : Chain heap val next start (front ++ (p, v) :: old)) (hnodup : (front.map fst ++ [p]).Nodup)
    (hval : val cell' = v) (hnext : next cell' = start')
    (hback : Chain (update heap p (some cell')) val next start' back) :
    Chain (update heap p (some cell')) val next start (front ++ (p, v) :: back) := by
  induction front generalizing start with
  | nil =>
    cases h with
    | cons hcell hrest =>
      rw [nil_append, ← hval]
      refine Chain.cons (by simp) ?_
      rw [hnext]
      exact hback
  | cons x front ih =>
    cases h with
    | cons hcell hrest =>
      simp only [map_cons, cons_append, nodup_cons, mem_append, mem_singleton, not_or] at hnodup
      refine Chain.cons ?_ (ih hrest hnodup.2)
      rw [update_of_ne hnodup.1.2]
      exact hcell

/-- Taking the cell after `(q, w)` out of a chain. -/
theorem unlink {front back : List (Ptr × Val)} {p q : Ptr} {v w : Val} {cell cell' : Cell}
    (h : Chain heap val next start (front ++ (q, w) :: (p, v) :: back))
    (hnodup : ((front ++ (q, w) :: (p, v) :: back).map fst).Nodup) (hcell : heap p = some cell)
    (hval : val cell' = w) (hnext : next cell' = next cell) :
    Chain (update (update heap q (some cell')) p none) val next start (front ++ (q, w) :: back) := by
  have hback : Chain heap val next (next cell) back := by
    have hdrop : front ++ (q, w) :: (p, v) :: back = (front ++ [(q, w)]) ++ (p, v) :: back := by
      simp
    rw [hdrop] at h
    obtain ⟨_, hrest⟩ := h.drop
    cases hrest with
    | cons hcell' hrest =>
      rw [hcell] at hcell'
      cases hcell'
      exact hrest
  simp only [map_append, map_cons, nodup_append, nodup_cons, mem_cons, mem_map, not_or] at hnodup
  obtain ⟨hfront, ⟨⟨hqp, hq⟩, hp, -⟩, hapart⟩ := hnodup
  have hfrontNodup : (front.map fst ++ [q]).Nodup := by
    rw [nodup_append]
    refine ⟨hfront, by simp, ?_⟩
    intro a ha b hb
    rw [mem_singleton] at hb
    exact hapart a (by simpa using ha) b (.inl hb)
  refine (h.splice hfrontNodup hval hnext ?_).update_of_notMem ?_
  · exact hback.update_of_notMem (by simpa using hq)
  · simp only [map_append, map_cons, mem_append, mem_cons, mem_map, not_or]
    exact ⟨fun hmem => hapart p (by simpa using hmem) p (.inr (.inl rfl)) rfl,
      fun heq => hqp heq.symm, hp⟩

end Chain

end Svr42
