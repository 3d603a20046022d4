import Mathlib.Logic.Relation

/-! Finite runs of a labelled transition system and the rules that carry facts along them. Nothing
here knows about the kernel; every subsystem instantiates it with its own step relation. -/

namespace Svr42
open List

/-- The runs of `step`, with the events they perform in order. -/
inductive Exec {State Event : Type*} (step : State → Event → State → Prop) :
    State → List Event → State → Prop
  | nil (s : State) : Exec step s [] s
  | snoc {s t u : State} {events : List Event} {event : Event} :
      Exec step s events t → step t event u → Exec step s (events ++ [event]) u

def Guarded {State Event : Type*} (step : State → Event → State → Prop) (ok : State → Event → Prop)
    (s : State) (event : Event) (t : State) : Prop :=
  ok s event ∧ step s event t

namespace Exec

variable {State Event : Type*} {step : State → Event → State → Prop} {s t u : State}
  {events events' : List Event}

theorem single {event : Event} (h : step s event t) : Exec step s [event] t :=
  Exec.snoc (Exec.nil s) h

theorem append (h : Exec step s events t) (h' : Exec step t events' u) :
    Exec step s (events ++ events') u := by
  induction h' with
  | nil => simpa using h
  | snoc _ hstep ih =>
    rw [← append_assoc]
    exact Exec.snoc ih hstep

theorem cons {event : Event} (h : step s event t) (h' : Exec step t events u) :
    Exec step s (event :: events) u :=
  (single h).append h'

theorem invariant {inv : State → Prop} (hstep : ∀ s event t, inv s → step s event t → inv t)
    (h : Exec step s events t) (hs : inv s) : inv t := by
  induction h with
  | nil => exact hs
  | snoc _ hlast ih => exact hstep _ _ _ ih hlast

theorem keeps (inv : State → Prop) (hstep : ∀ s event t, inv s → step s event t → inv t)
    (h : Exec step s events t) (hs : inv s) : inv t :=
  h.invariant hstep hs

theorem lost {P : State → Prop} (h : Exec step s events t) (hs : P s) (ht : ¬ P t) :
    ∃ before event after u v, events = before ++ event :: after ∧ Exec step s before u ∧
      step u event v ∧ Exec step v after t ∧ P u ∧ ¬ P v := by
  induction h with
  | nil => exact absurd hs ht
  | @snoc u t before event hrun hstep ih =>
    by_cases hu : P u
    · exact ⟨before, event, [], u, t, rfl, hrun, hstep, nil t, hu, ht⟩
    · obtain ⟨front, lost, after, v, w, rfl, hfront, hlost, hafter, hv, hw⟩ := ih hu
      exact ⟨front, lost, after ++ [event], v, w, by simp, hfront, hlost, hafter.snoc hstep, hv, hw⟩

theorem mono {step' : State → Event → State → Prop}
    (himp : ∀ s event t, step s event t → step' s event t) (h : Exec step s events t) :
    Exec step' s events t := by
  induction h with
  | nil => exact Exec.nil _
  | snoc _ hlast ih => exact Exec.snoc ih (himp _ _ _ hlast)

theorem of_guarded {ok : State → Event → Prop} (h : Exec (Guarded step ok) s events t) :
    Exec step s events t :=
  h.mono fun _ _ _ hstep => hstep.2

theorem of_foldlM {f : State → Event → Option State} (h : events.foldlM f s = some t) :
    Exec (fun s event t => f s event = some t) s events t := by
  induction events generalizing s with
  | nil =>
    obtain rfl : s = t := Option.some.inj h
    exact Exec.nil s
  | cons event events ih =>
    obtain ⟨u, hu, hrest⟩ := Option.bind_eq_some_iff.mp h
    exact cons hu (ih hrest)

end Exec

theorem filterMap_snoc {α β : Type*} (g : α → Option β) (xs : List α) (x : α) :
    (xs ++ [x]).filterMap g = xs.filterMap g ++ (g x).toList := by
  cases hx : g x with
  | none => simp [hx]
  | some y => simp [hx]

end Svr42
