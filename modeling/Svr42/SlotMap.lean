import Mathlib.Data.Finmap
import Svr42.Tally

/-! A table of slots, some of which hold a key with its value, as the finite map from keys to
values that it stands for, and what filling, emptying and overwriting one slot does to that map. -/

namespace Svr42
open Function List Option

variable {σ κ ν : Type*}

def Stores (held : σ → Option (Σ _ : κ, ν)) (l : List σ) (m : Finmap fun _ : κ => ν) : Prop :=
  m.entries = (l.filterMap held : Multiset (Σ _ : κ, ν))

section Lists

variable {l : List σ} {i : Nat} {x : σ}

theorem filterMap_set_perm (held : σ → Option (Σ _ : κ, ν)) (hi : l[i]? = some x) :
    ∃ rest : List (Σ _ : κ, ν), ∀ y, ((l.set i y).filterMap held).Perm ((held y).toList ++ rest) := by
  refine ⟨(l.take i).filterMap held ++ (l.drop (i + 1)).filterMap held, fun y => ?_⟩
  have hlt : i < l.length := (List.getElem?_eq_some_iff.mp hi).1
  rw [set_eq_take_append_cons_drop, if_pos hlt, filterMap_append]
  cases hy : held y with
  | none => rw [filterMap_cons_none hy, toList_none, nil_append]
  | some b =>
    rw [filterMap_cons_some hy, toList_some, singleton_append]
    exact perm_middle

theorem set_getElem?_self (hi : l[i]? = some x) : l.set i x = l := by
  obtain ⟨hlt, rfl⟩ := List.getElem?_eq_some_iff.mp hi
  exact set_getElem_self hlt

end Lists

namespace Stores

variable {held : σ → Option (Σ _ : κ, ν)} {l : List σ} {m : Finmap fun _ : κ => ν} {i : Nat}
  {x y : σ} {k k' : κ} {v w : ν}

theorem card_le (h : Stores held l m) : m.keys.card ≤ l.length :=
  calc m.keys.card = m.entries.card := Multiset.card_map _ _
    _ = (l.filterMap held).length := by rw [h, Multiset.coe_card]
    _ ≤ l.length := length_filterMap_le held l

theorem nil (held : σ → Option (Σ _ : κ, ν)) : Stores held [] ∅ := rfl

variable [DecidableEq κ]

section

variable (h : Stores held l m)
include h

theorem lookup_iff : m.lookup k = some v ↔ ∃ x ∈ l, held x = some ⟨k, v⟩ := by
  rw [Finmap.lookup_eq_some_iff, h, Multiset.mem_coe, mem_filterMap]

theorem mem_iff : k ∈ m ↔ ∃ x ∈ l, ∃ v, held x = some ⟨k, v⟩ := by
  rw [Finmap.mem_iff]
  constructor
  · rintro ⟨v, hv⟩
    obtain ⟨x, hx, hheld⟩ := h.lookup_iff.mp hv
    exact ⟨x, hx, v, hheld⟩
  · rintro ⟨x, hx, v, hheld⟩
    exact ⟨v, h.lookup_iff.mpr ⟨x, hx, hheld⟩⟩

theorem lookup_at (hi : l[i]? = some x) (hx : held x = some ⟨k, v⟩) : m.lookup k = some v :=
  h.lookup_iff.mpr ⟨x, mem_of_getElem? hi, hx⟩

theorem push (hk : k ∉ m) (hy : held y = some ⟨k, v⟩) : Stores held (l ++ [y]) (m.insert k v) := by
  rw [Stores, Finmap.entries_insert_of_notMem hk, h, filterMap_append,
    filterMap_cons_some hy, filterMap_nil, Multiset.cons_coe, Multiset.coe_eq_coe]
  exact (perm_append_singleton _ _).symm

theorem fill (hi : l[i]? = some x) (hx : held x = none) (hk : k ∉ m)
    (hy : held y = some ⟨k, v⟩) : Stores held (l.set i y) (m.insert k v) := by
  obtain ⟨rest, hrest⟩ := filterMap_set_perm held hi
  have hold := hrest x
  rw [set_getElem?_self hi, hx, toList_none, nil_append] at hold
  have hnew := hrest y
  rw [hy, toList_some, singleton_append] at hnew
  rw [Stores, Finmap.entries_insert_of_notMem hk, h, Multiset.cons_coe, Multiset.coe_eq_coe]
  exact (hold.cons _).trans hnew.symm

end

theorem entries_erase (hv : m.lookup k = some v) : m.entries = ⟨k, v⟩ ::ₘ (m.erase k).entries := by
  have hback : (m.erase k).insert k v = m := by
    refine Finmap.ext_lookup fun q => ?_
    by_cases hq : q = k
    · rw [hq, Finmap.lookup_insert, hv]
    · rw [Finmap.lookup_insert_of_ne _ hq, Finmap.lookup_erase_ne hq]
  calc m.entries = ((m.erase k).insert k v).entries := by rw [hback]
    _ = ⟨k, v⟩ ::ₘ (m.erase k).entries := Finmap.entries_insert_of_notMem Finmap.notMem_erase_self

section

variable (h : Stores held l m) (hi : l[i]? = some x) (hx : held x = some ⟨k, v⟩)
include h hi hx

theorem others : ∃ rest : List (Σ _ : κ, ν), (m.erase k).entries = rest ∧
      ∀ y, ((l.set i y).filterMap held).Perm ((held y).toList ++ rest) := by
  obtain ⟨rest, hrest⟩ := filterMap_set_perm held hi
  have hold := hrest x
  rw [set_getElem?_self hi, hx, toList_some, singleton_append] at hold
  refine ⟨rest, (Multiset.cons_inj_right ⟨k, v⟩).mp ?_, hrest⟩
  rw [← entries_erase (h.lookup_at hi hx), h, Multiset.cons_coe, Multiset.coe_eq_coe]
  exact hold

theorem clear (hy : held y = none) : Stores held (l.set i y) (m.erase k) := by
  obtain ⟨rest, herase, hrest⟩ := h.others hi hx
  have hnew := hrest y
  rw [hy, toList_none, nil_append] at hnew
  rw [Stores, herase, Multiset.coe_eq_coe]
  exact hnew.symm

theorem rename (hk : k' ∉ m.erase k) (hy : held y = some ⟨k', w⟩) :
    Stores held (l.set i y) ((m.erase k).insert k' w) := by
  obtain ⟨rest, herase, hrest⟩ := h.others hi hx
  have hnew := hrest y
  rw [hy, toList_some, singleton_append] at hnew
  rw [Stores, Finmap.entries_insert_of_notMem hk, herase, Multiset.cons_coe, Multiset.coe_eq_coe]
  exact hnew.symm

end

end Stores

section Named

variable [DecidableEq κ] [DecidableEq ν] {m : Finmap fun _ : κ => ν} {k : κ} {v w : ν}

def named (m : Finmap fun _ : κ => ν) (v : ν) : Nat := tally m.keys (fun k => m.lookup k) (some v)

theorem named_pos : 0 < named m v ↔ ∃ k, m.lookup k = some v := by
  rw [named, tally_pos]
  constructor
  · rintro ⟨k, -, hk⟩
    exact ⟨k, hk⟩
  · rintro ⟨k, hk⟩
    exact ⟨k, Finmap.mem_keys.mpr (Finmap.mem_of_lookup_eq_some hk), hk⟩

theorem named_insert (hk : k ∉ m) : named (m.insert k w) v = named m v + if w = v then 1 else 0 := by
  have hkeys : (m.insert k w).keys = insert k m.keys := by
    ext q
    rw [Finmap.mem_keys, Finmap.mem_insert, Finset.mem_insert, Finmap.mem_keys]
  have hvals : (fun q => (m.insert k w).lookup q) = update (fun q => m.lookup q) k (some w) := by
    funext q
    by_cases hq : q = k
    · rw [hq, Finmap.lookup_insert, update_self]
    · rw [Finmap.lookup_insert_of_ne _ hq, update_of_ne hq]
  rw [named, hkeys, hvals, tally_insert (mt Finmap.mem_keys.mp hk)]
  simp only [some_inj]
  rfl

theorem named_erase (hk : m.lookup k = some w) :
    named m v = named (m.erase k) v + if w = v then 1 else 0 := by
  have hback : m = (m.erase k).insert k w := Finmap.ext (by
      rw [Stores.entries_erase hk, Finmap.entries_insert_of_notMem Finmap.notMem_erase_self])
  calc named m v = named ((m.erase k).insert k w) v := by rw [← hback]
    _ = named (m.erase k) v + if w = v then 1 else 0 := named_insert Finmap.notMem_erase_self

theorem named_le_card : named m v ≤ m.keys.card := tally_le_card

end Named

end Svr42
