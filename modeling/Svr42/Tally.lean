import Mathlib.Data.Finset.Card

/-! How many elements of a finite set have a given value, as the set and the values change. -/

namespace Svr42
open Finset Function

variable {α β : Type*} [DecidableEq β] {S T : Finset α} {f g : α → β} {x : α} {b v : β}

def tally (S : Finset α) (f : α → β) (b : β) : Nat := (S.filter fun x => f x = b).card

theorem tally_congr (h : ∀ x ∈ S, f x = b ↔ g x = b) : tally S f b = tally S g b := by
  rw [tally, tally, filter_congr h]

@[simp] theorem tally_empty : tally ∅ f b = 0 := rfl

@[simp] theorem tally_singleton : tally {x} f b = if f x = b then 1 else 0 := by
  rw [tally, filter_singleton]
  split_ifs with h
  · exact card_singleton x
  · exact card_empty

theorem tally_pos : 0 < tally S f b ↔ ∃ x ∈ S, f x = b := by
  rw [tally, card_pos]
  constructor
  · rintro ⟨x, hx⟩
    exact ⟨x, mem_filter.mp hx⟩
  · rintro ⟨x, hx⟩
    exact ⟨x, mem_filter.mpr hx⟩

theorem tally_eq_zero : tally S f b = 0 ↔ ∀ x ∈ S, f x ≠ b := by
  rw [tally, card_eq_zero, filter_eq_empty_iff]

theorem tally_le_one (h : ∀ x ∈ S, ∀ y ∈ S, f x = b → f y = b → x = y) : tally S f b ≤ 1 := by
  rw [tally, card_le_one]
  intro x hx y hy
  rw [mem_filter] at hx hy
  exact h x hx.1 y hy.1 hx.2 hy.2

theorem tally_mono (h : S ⊆ T) : tally S f b ≤ tally T f b :=
  card_le_card (filter_subset_filter _ h)

theorem tally_le_card : tally S f b ≤ S.card := card_filter_le S _

variable [DecidableEq α]

theorem tally_le_add {γ : Type*} [DecidableEq γ] {h : α → γ} {c d : γ}
    (hor : ∀ x ∈ S, f x = b → h x = c ∨ h x = d) : tally S f b ≤ tally S h c + tally S h d := by
  rw [tally, tally, tally]
  refine le_trans (card_le_card fun x hx => ?_) (card_union_le _ _)
  rw [mem_filter] at hx
  rw [mem_union, mem_filter, mem_filter]
  exact (hor x hx.1 hx.2).imp (fun hc => ⟨hx.1, hc⟩) fun hd => ⟨hx.1, hd⟩

theorem tally_insert (hx : x ∉ S) (v : β) :
    tally (insert x S) (update f x v) b = tally S f b + if v = b then 1 else 0 := by
  have hold : tally S (update f x v) b = tally S f b := tally_congr fun y hy => by
    rw [update_of_ne (ne_of_mem_of_not_mem hy hx)]
  rw [← hold, tally, filter_insert, update_self]
  split_ifs with hv
  · rw [card_insert_of_notMem fun hmem => hx (mem_of_mem_filter x hmem), tally]
  · rfl

theorem tally_erase (hx : x ∈ S) : tally (S.erase x) f b + (if f x = b then 1 else 0) = tally S f b := by
  have hins := tally_insert (f := f) (b := b) (notMem_erase x S) (f x)
  rw [insert_erase hx, update_eq_self] at hins
  exact hins.symm

theorem tally_update (hx : x ∈ S) (v : β) :
    tally S (update f x v) b + (if f x = b then 1 else 0) = tally S f b + if v = b then 1 else 0 := by
  have hins := tally_insert (f := f) (b := b) (notMem_erase x S) v
  rw [insert_erase hx] at hins
  have herase := tally_erase (f := f) (b := b) hx
  omega

end Svr42
