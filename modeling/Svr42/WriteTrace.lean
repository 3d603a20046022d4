import Mathlib.Data.List.Basic

/-! Writes that reach a store one after the other and may stop anywhere: what holds at every stop.
Nothing here knows what the store or the writes are. -/

namespace Svr42
open List

variable {σ ω : Type*} {put : σ → ω → σ} {P Q : σ → Prop} {d : σ} {w : ω} {ws vs : List ω}

def writeAll (put : σ → ω → σ) (d : σ) (ws : List ω) : σ := ws.foldl put d

@[simp] theorem writeAll_nil : writeAll put d [] = d := rfl

@[simp] theorem writeAll_cons : writeAll put d (w :: ws) = writeAll put (put d w) ws := rfl

theorem writeAll_append : writeAll put d (ws ++ vs) = writeAll put (writeAll put d ws) vs :=
  foldl_append

def AtStops (put : σ → ω → σ) (P : σ → Prop) (d : σ) (ws : List ω) : Prop :=
  ∀ k, P (writeAll put d (ws.take k))

namespace AtStops

theorem last (h : AtStops put P d ws) : P (writeAll put d ws) := by
  have hall := h ws.length
  rwa [take_length] at hall

theorem nil (h : P d) : AtStops put P d ([] : List ω) := fun k => by
  rw [take_nil]
  exact h

theorem cons (h : P d) (hrest : AtStops put P (put d w) ws) : AtStops put P d (w :: ws) := by
  intro k
  cases k with
  | zero => exact h
  | succ k => exact hrest k

theorem append (h : AtStops put P d ws) (hrest : AtStops put P (writeAll put d ws) vs) :
    AtStops put P d (ws ++ vs) := by
  intro k
  rw [take_append, writeAll_append]
  rcases Nat.le_total ws.length k with hk | hk
  · rw [take_of_length_le hk]
    exact hrest _
  · rw [Nat.sub_eq_zero_of_le hk, take_zero]
    exact h k

theorem mono (h : AtStops put P d ws) (himp : ∀ d, P d → Q d) : AtStops put Q d ws :=
  fun k => himp _ (h k)

end AtStops

end Svr42
