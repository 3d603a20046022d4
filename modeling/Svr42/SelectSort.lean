import Mathlib.Data.List.Basic
import Mathlib.Data.List.GetD

/-! Selection sort by exchanges, over any comparison that is a weak order on the elements. -/

namespace Svr42.SelectSort
open List

variable {α : Type} [Inhabited α] {less : α → α → Bool} {a : List α} {i j start low todo next : Nat}

def get (a : List α) (i : Nat) : α := a.getD i default

def exchange (a : List α) (i j : Nat) : List α := (a.set i (get a j)).set j (get a i)

/-- The place of the least element among `low` and `todo` others from `next` on. -/
def lowest (less : α → α → Bool) (a : List α) : Nat → Nat → Nat → Nat
  | 0, _, low => low
  | todo + 1, next, low =>
      lowest less a todo (next + 1) (if less (get a next) (get a low) = true then next else low)

/-- The elements from `start` on are sorted, all but the last `todo` times. -/
def sortFrom (less : α → α → Bool) : Nat → Nat → List α → List α
  | 0, _, a => a
  | todo + 1, start, a =>
      let low := lowest less a (todo + 1) (start + 1) start
      sortFrom less todo (start + 1) (if low ≠ start then exchange a start low else a)

def selectSort (less : α → α → Bool) (a : List α) : List α := sortFrom less (a.length - 1) 0 a

/-- What is not less, on some elements, is an order without ties broken. -/
structure WeakOrder (less : α → α → Bool) (on : α → Prop) : Prop where
  asymm : ∀ x y, on x → on y → less x y = true → less y x = false
  trans : ∀ x y z, on x → on y → on z → less y x = false → less z y = false → less z x = false

@[simp]
theorem exchange_length : (exchange a i j).length = a.length := by
  simp [exchange]

theorem get_mem (h : i < a.length) : get a i ∈ a := by
  rw [get, getD_eq_getElem a default h]
  exact getElem_mem h

theorem exchange_perm (hi : i < a.length) (hj : j < a.length) : (exchange a i j).Perm a := by
  rw [exchange, get, get, getD_eq_getElem a default hi, getD_eq_getElem a default hj]
  exact set_set_perm hi hj

theorem get_set {x : α} (h : i < a.length) : get (a.set i x) j = if i = j then x else get a j := by
  simp only [get, getD_eq_getElem?_getD, List.getElem?_set, h, if_true]
  split_ifs with hij
  · rfl
  · rfl

theorem get_exchange (hi : i < a.length) (hj : j < a.length) (k : Nat) :
    get (exchange a i j) k = if j = k then get a i else if i = k then get a j else get a k := by
  rw [exchange, get_set (by simpa using hj), get_set hi]

variable {on : α → Prop}

theorem lowest_spec (h : WeakOrder less on) (hon : ∀ k, k < a.length → on (get a k))
    (hstart : start ≤ low) (hlow : low < next) (hend : next + todo ≤ a.length)
    (hleast : ∀ k, start ≤ k → k < next → less (get a k) (get a low) = false) :
    start ≤ lowest less a todo next low ∧ lowest less a todo next low < next + todo ∧
      ∀ k, start ≤ k → k < next + todo → less (get a k) (get a (lowest less a todo next low)) = false := by
  induction todo generalizing next low with
  | zero => exact ⟨hstart, hlow, hleast⟩
  | succ todo ih =>
    rw [lowest, show next + (todo + 1) = next + 1 + todo by omega]
    split_ifs with hless
    · refine ih (by omega) (by omega) (by omega) fun k hk hlt => ?_
      rcases Nat.lt_succ_iff_lt_or_eq.mp hlt with hk' | rfl
      · have hnot := h.asymm _ _ (hon next (by omega)) (hon low (by omega)) hless
        exact h.trans _ _ _ (hon next (by omega)) (hon low (by omega)) (hon k (by omega)) hnot
          (hleast k hk hk')
      · by_contra hself
        have htrue := Bool.not_eq_false _ ▸ hself
        have hfalse := h.asymm _ _ (hon k (by omega)) (hon k (by omega)) htrue
        exact hself hfalse
    · refine ih hstart (by omega) (by omega) fun k hk hlt => ?_
      rcases Nat.lt_succ_iff_lt_or_eq.mp hlt with hk' | rfl
      · exact hleast k hk hk'
      · exact Bool.not_eq_true _ ▸ hless

def SortedTo (less : α → α → Bool) (a : List α) (start : Nat) : Prop :=
  ∀ i j, i < start → i < j → j < a.length → less (get a j) (get a i) = false

theorem SortedTo.step (hsorted : SortedTo less a start) (hlow : start ≤ low) (hend : low < a.length)
    (hleast : ∀ k, start ≤ k → k < a.length → less (get a k) (get a low) = false) :
    SortedTo less (if low ≠ start then exchange a start low else a) (start + 1) := by
  by_cases heq : low = start
  · rw [if_neg (not_not.mpr heq)]
    intro i j hi hij hj
    rcases Nat.lt_succ_iff_lt_or_eq.mp hi with hi' | rfl
    · exact hsorted i j hi' hij hj
    · rw [← heq]
      exact hleast j (by omega) hj
  rw [if_pos heq]
  intro i j hi hij hj
  rw [exchange_length] at hj
  rw [get_exchange (by omega) hend, get_exchange (by omega) hend, if_neg (show low ≠ i by omega)]
  rcases Nat.lt_succ_iff_lt_or_eq.mp hi with hi' | rfl
  · rw [if_neg (show start ≠ i by omega)]
    split_ifs
    · exact hsorted i start hi' hi' (by omega)
    · exact hsorted i low hi' (by omega) hend
    · exact hsorted i j hi' hij hj
  · rw [if_pos rfl, if_neg (show i ≠ j by omega)]
    split_ifs
    · exact hleast i (Nat.le_refl i) (by omega)
    · exact hleast j (by omega) hj

theorem sortFrom_spec (h : WeakOrder less on) (hon : ∀ x ∈ a, on x)
    (hlength : a.length = start + todo + 1) (hsorted : SortedTo less a start) :
    (sortFrom less todo start a).Perm a ∧ SortedTo less (sortFrom less todo start a) a.length := by
  induction todo generalizing start a with
  | zero =>
    refine ⟨List.Perm.refl a, fun i j hi hij hj => ?_⟩
    rw [sortFrom] at hj ⊢
    exact hsorted i j (by omega) hij hj
  | succ todo ih =>
    have hget : ∀ k, k < a.length → on (get a k) := fun k hk => hon _ (get_mem hk)
    have hself : less (get a start) (get a start) = false := by
      have hin := hget start (by omega)
      by_contra hself
      exact hself (h.asymm _ _ hin hin (Bool.not_eq_false _ ▸ hself))
    obtain ⟨hge, hlt, hleast⟩ := lowest_spec h hget (Nat.le_refl start) (Nat.lt_succ_self start)
        (show start + 1 + (todo + 1) ≤ a.length by omega) (fun k hk hk' => by
          rw [show k = start by omega]
          exact hself)
    rw [sortFrom]
    revert hge hlt hleast
    generalize lowest less a (todo + 1) (start + 1) start = low
    intro hge hlt hleast
    have hperm : (if low ≠ start then exchange a start low else a).Perm a := by
      split_ifs
      · exact exchange_perm (by omega) (by omega)
      · exact List.Perm.refl a
    have hnext := hsorted.step hge (by omega) fun k hk hk' => hleast k hk (by omega)
    obtain ⟨hperm', hsorted'⟩ := ih (fun x hx => hon x (hperm.subset hx))
      (by rw [hperm.length_eq]; omega) hnext
    refine ⟨hperm'.trans hperm, ?_⟩
    rw [hperm.length_eq] at hsorted'
    exact hsorted'

theorem selectSort_spec (h : WeakOrder less on) (hon : ∀ x ∈ a, on x) :
    (selectSort less a).Perm a ∧ (selectSort less a).Pairwise fun x y => less y x = false := by
  by_cases hnil : a.length = 0
  · rw [selectSort, hnil, length_eq_zero_iff.mp hnil]
    exact ⟨List.Perm.nil, List.Pairwise.nil⟩
  obtain ⟨hperm, hsorted⟩ := sortFrom_spec h hon (show a.length = 0 + (a.length - 1) + 1 by omega)
    fun i j hi => absurd hi (Nat.not_lt_zero i)
  refine ⟨hperm, pairwise_iff_getElem.mpr fun i j hi hj hij => ?_⟩
  have hle := hsorted i j (by rw [← hperm.length_eq]; exact hi) hij hj
  have hget : ∀ {k : Nat} (hk : k < (selectSort less a).length),
      get (selectSort less a) k = (selectSort less a)[k] := fun hk => getD_eq_getElem _ default hk
  rw [← hget hi, ← hget hj]
  exact hle

end Svr42.SelectSort
