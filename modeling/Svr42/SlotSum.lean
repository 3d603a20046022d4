import Mathlib.Data.List.Basic

/-! Sums over the slots of a table, and what overwriting one slot does to them. Nothing here knows what
the slots hold. -/

namespace Svr42
open List Nat Option

variable {σ : Type*} {f g : σ → Nat} {l : List σ} {i : Nat} {x y : σ}

def total (f : σ → Nat) : List σ → Nat
  | [] => 0
  | x :: l => f x + total f l

theorem total_set (hi : l[i]? = some x) (f : σ → Nat) (y : σ) :
    total f (l.set i y) + f x = total f l + f y := by
  induction l generalizing i with
  | nil => cases hi
  | cons z l ih =>
    cases i with
    | zero =>
      obtain rfl : z = x := some.inj hi
      rw [set_cons_zero, total, total]
      omega
    | succ i =>
      have hrest := ih hi
      rw [set_cons_succ, total, total]
      omega

theorem total_congr (h : ∀ x ∈ l, f x = g x) : total f l = total g l := by
  induction l with
  | nil => rfl
  | cons x l ih =>
    rw [total, total, h x (.head _), ih fun y hy => h y (.tail x hy)]

theorem total_eq_zero (h : ∀ x ∈ l, f x = 0) : total f l = 0 := by
  induction l with
  | nil => rfl
  | cons x l ih =>
    rw [total, h x (.head _), ih fun y hy => h y (.tail x hy)]

theorem total_replicate (f : σ → Nat) (n : Nat) (x : σ) : total f (List.replicate n x) = n * f x := by
  induction n with
  | zero => rw [replicate_zero, total, Nat.zero_mul]
  | succ n ih => rw [replicate_succ, total, ih, succ_mul, Nat.add_comm]

theorem total_le (h : ∀ x ∈ l, f x ≤ g x) : total f l ≤ total g l := by
  induction l with
  | nil => exact Nat.le_refl 0
  | cons x l ih =>
    exact Nat.add_le_add (h x (.head _)) (ih fun y hy => h y (.tail x hy))

/-- Two functions that differ at one slot in one direction and at no slot in the other. -/
theorem total_lt (h : ∀ x ∈ l, f x ≤ g x) (hx : x ∈ l) (hlt : f x < g x) : total f l < total g l := by
  induction l with
  | nil => cases hx
  | cons z l ih =>
    have hz := h z (.head _)
    have hl := total_le fun y hy => h y (.tail z hy)
    rw [total, total]
    rcases mem_cons.mp hx with rfl | hx
    · omega
    · have hrest := ih (fun y hy => h y (.tail z hy)) hx
      omega

theorem total_ext {l' : List σ} (hlen : l'.length = l.length)
    (h : ∀ (i : Nat) (x : σ), l[i]? = some x → ∃ y, l'[i]? = some y ∧ f y = f x) : total f l' = total f l := by
  induction l generalizing l' with
  | nil => rw [eq_nil_of_length_eq_zero hlen]
  | cons x l ih =>
    cases l' with
    | nil => exact Nat.noConfusion hlen
    | cons y l' =>
      obtain ⟨z, hz, hf⟩ := h 0 x rfl
      obtain rfl : y = z := some.inj hz
      rw [total, total, hf, ih (succ.inj hlen) fun i w hw => h (i + 1) w hw]

theorem total_le_length (h : ∀ x ∈ l, f x ≤ 1) : total f l ≤ l.length := by
  induction l with
  | nil => exact Nat.le_refl 0
  | cons x l ih =>
    have hx := h x (.head _)
    have hl := ih fun y hy => h y (.tail x hy)
    rw [total, length_cons]
    omega

end Svr42
