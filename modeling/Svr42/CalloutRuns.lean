import Mathlib.Algebra.Order.Group.Multiset
import Svr42.CalloutModel
import Svr42.HeapSift
import Svr42.RunExec

/-! The callout table against an agenda, the collection of what is pending: the table stays a heap
that holds it, and every call does to the agenda what it is for. -/

namespace Svr42.Callout
open Function List Nat Option

open HeapSift

variable {callout callout' : Nat → Callo} {n j j' f id : Nat} {t : Int} {s s' : Clock} {e : Callo}

/-- What is pending, and the clock. -/
structure Agenda where
  pending : Multiset Callo
  lbolt : Int

/-- Calls and ticks as they are meant: an entry is due once the clock has reached its time, the
earliest one is called first, and `timein` returns when none is due. -/
inductive Agenda.Step : Agenda → Event → Agenda → Prop
  | tick {a : Agenda} : Agenda.Step a .tick { a with lbolt := a.lbolt + 1 }
  | timeout {a : Agenda} {fn arg id : Nat} {tim : Int} : id ≠ 0 →
      Agenda.Step a (.timeout fn arg tim ⟨a.lbolt + tim, id, arg, fn⟩)
        { a with pending := ⟨a.lbolt + tim, id, arg, fn⟩ ::ₘ a.pending }
  | cancel {a : Agenda} {e : Callo} : e ∈ a.pending →
      Agenda.Step a (.untimeout e.cId (some e)) { a with pending := a.pending.erase e }
  | missing {a : Agenda} {id : Nat} : (∀ e ∈ a.pending, e.cId ≠ id) →
      Agenda.Step a (.untimeout id none) a
  | timein {a : Agenda} : Agenda.Step a .timein a
  | call {a : Agenda} {e : Callo} : e ∈ a.pending → e.cTime ≤ a.lbolt →
      (∀ e' ∈ a.pending, e.cTime ≤ e'.cTime) →
      Agenda.Step a (.call e) { a with pending := a.pending.erase e }
  | ret {a : Agenda} : (∀ e ∈ a.pending, a.lbolt < e.cTime) → Agenda.Step a .ret a

def Clock.agenda (s : Clock) : Agenda := ⟨contents s.callout s.ncallout, s.lbolt⟩

def Clock.Ordered (s : Clock) : Prop := Heap Callo.cTime s.callout s.ncallout

/-! ### The sifts -/

/-- A sift from `j` has found a place for an entry of time `t`. -/
structure Sifted (n : Nat) (t : Int) (callout : Nat → Callo) (j : Nat) (callout' : Nat → Callo)
    (j' : Nat) : Prop where
  hole : Hole Callo.cTime callout' n j'
  below : Below Callo.cTime callout' n j' t
  above : Above Callo.cTime callout' j' t
  place : j' < n
  rest : rest callout' n j' = rest callout n j
  frame : ∀ i, n ≤ i → callout' i = callout i

theorem Sifted.move {k : Nat} (hj : j < n) (hk : k < n) (hne : k ≠ j)
    (h : Sifted n t (update callout j (callout k)) k callout' j') :
    Sifted n t callout j callout' j' where
  hole := h.hole
  below := h.below
  above := h.above
  place := h.place
  rest := h.rest.trans (rest_move hj hk hne)
  frame i hi := by rw [h.frame i hi, update_of_ne (by omega)]

theorem heapUp_ok (hj : j < n) (hhole : Hole Callo.cTime callout n j)
    (hbelow : Below Callo.cTime callout n j t) :
    Sifted n t callout j (heapUp t j callout).1 (heapUp t j callout).2 := by
  induction j, callout using heapUp.induct (t) with
  | case1 j callout hpos k hlt ih =>
    have hmove := hhole.moveUp hpos hj hlt
    have hk : k < j := up_lt hpos
    rw [heapUp, if_pos hpos, if_pos hlt]
    exact Sifted.move hj (hk.trans hj) hk.ne (ih (hk.trans hj) hmove.1 hmove.2)
  | case2 j callout hpos k hle =>
    rw [heapUp, if_pos hpos, if_neg hle]
    exact ⟨hhole, hbelow, fun _ => not_lt.mp hle, hj, rfl, fun _ _ => rfl⟩
  | case3 j callout hzero =>
    rw [heapUp, if_neg hzero]
    exact ⟨hhole, hbelow, fun hpos => absurd hpos hzero, hj, rfl, fun _ _ => rfl⟩

def child (n j : Nat) (callout : Nat → Callo) : Nat :=
  if 1 + 2 * j + 1 < n ∧ (callout (1 + 2 * j + 1)).cTime < (callout (1 + 2 * j)).cTime then
    1 + 2 * j + 1
  else 1 + 2 * j

theorem child_ok (callout : Nat → Callo) (hleft : 1 + 2 * j < n) : child n j callout < n ∧ 0 < child n j callout ∧
    up (child n j callout) = j ∧
    ∀ i < n, 0 < i → up i = j → (callout (child n j callout)).cTime ≤ (callout i).cTime := by
  -- a place below `j` is the left one or the right one
  have hplace : ∀ i, 0 < i → up i = j → i = 1 + 2 * j ∨ i = 1 + 2 * j + 1 := by
    intro i hpos hup
    unfold up at hup
    omega
  unfold child
  split
  · rename_i hright
    refine ⟨hright.1, by omega, by unfold up; omega, fun i _ hpos hup => ?_⟩
    rcases hplace i hpos hup with heq | heq
    · rw [heq]
      exact le_of_lt hright.2
    · rw [heq]
  · rename_i hright
    refine ⟨hleft, by omega, by unfold up; omega, fun i hi hpos hup => ?_⟩
    rcases hplace i hpos hup with heq | heq
    · rw [heq]
    · rw [heq] at hi ⊢
      exact not_lt.mp fun hlt => hright ⟨hi, hlt⟩

theorem heapDown_eq : heapDown n t j callout = if 1 + 2 * j < n then
      if t ≤ (callout (child n j callout)).cTime then (callout, j)
      else heapDown n t (child n j callout) (update callout j (callout (child n j callout)))
    else (callout, j) := by
  rw [heapDown]
  rfl

theorem heapDown_ok (hj : j < n) (hhole : Hole Callo.cTime callout n j)
    (habove : Above Callo.cTime callout j t) :
    Sifted n t callout j (heapDown n t j callout).1 (heapDown n t j callout).2 := by
  induction hm : n - j using Nat.strongRecOn generalizing j callout with
  | ind m ih =>
    rw [heapDown_eq]
    by_cases hleft : 1 + 2 * j < n
    · rw [if_pos hleft]
      obtain ⟨hk, hpos, hup, hleast⟩ := child_ok callout hleft
      by_cases hle : t ≤ (callout (child n j callout)).cTime
      · rw [if_pos hle]
        exact ⟨hhole, fun i hi hpos hup => hle.trans (hleast i hi hpos hup), habove, hj, rfl,
          fun _ _ => rfl⟩
      rw [if_neg hle]
      have hmove := hhole.moveDown hpos hk hup hleast (not_le.mp hle)
      have hlt : j < child n j callout := by
        have hup_lt := up_lt hpos
        rwa [hup] at hup_lt
      exact Sifted.move hj hk hlt.ne' (ih _ (by omega) hk hmove.1 hmove.2 rfl)
    · rw [if_neg hleft]
      refine ⟨hhole, fun i hi hpos hup => ?_, habove, hj, rfl, fun _ _ => rfl⟩
      unfold up at hup
      omega

theorem Sifted.fill (h : Sifted n t callout j callout' j') (he : e.cTime = t) :
    Heap Callo.cTime (update callout' j' e) n ∧
      contents (update callout' j' e) n = e ::ₘ HeapSift.rest callout n j := by
  refine ⟨h.hole.fill ?_ ?_, ?_⟩
  · rw [he]
    exact h.below
  · rw [he]
    exact h.above
  · rw [contents_fill h.place, h.rest]

/-! ### The calls -/

theorem nextId_ne : nextId id ≠ 0 := by
  unfold nextId
  split
  · decide
  · assumption

theorem timeout_ok {vCall fn arg : Nat} {tim : Int} (h : s.Ordered) (hfits : Fits (s.lbolt + tim))
    (heq : timeout vCall s fn arg tim = some (s', id)) :
    s'.Ordered ∧ id = nextId s.timeid ∧ s'.timeid = id ∧ s'.agenda = { s.agenda with
        pending := ⟨s.lbolt + tim, id, arg, fn⟩ ::ₘ s.agenda.pending } := by
  have hsift := heapUp_ok (t := time (s.lbolt + tim)) (lt_succ_self s.ncallout) h.hole_end below_end
  simp only [timeout] at heq
  split at heq
  · cases heq
  · rw [Option.some.injEq, Prod.mk.injEq] at heq
    obtain ⟨hs', hid⟩ := heq
    have hfill := hsift.fill (e := ⟨time (s.lbolt + tim), nextId s.timeid, arg, fn⟩) rfl
    rw [rest_end, hfits] at hfill
    rw [hfits] at hs'
    rw [← hs', ← hid]
    refine ⟨hfill.1, rfl, rfl, ?_⟩
    unfold Clock.agenda
    rw [hfill.2]

theorem Sifted.replace (h : Sifted n (callout n).cTime callout f callout' j') (hf : f < n) :
    Heap Callo.cTime (update callout' j' (callout' n)) n ∧ contents (update callout' j' (callout' n)) n =
        (contents callout (n + 1)).erase (callout f) := by
  rw [h.frame n (le_refl n)]
  refine ⟨(h.fill rfl).1, (h.fill rfl).2.trans ?_⟩
  rw [contents_succ, contents_eq hf, Multiset.cons_swap, Multiset.erase_cons_head]

theorem delete_ok (h : s.Ordered) (hf : f < s.ncallout) : (delete s f).Ordered ∧
    (delete s f).agenda = { s.agenda with
      pending := s.agenda.pending.erase (s.callout f) } := by
  obtain ⟨n, hn⟩ : ∃ n, s.ncallout = n + 1 := ⟨s.ncallout - 1, by omega⟩
  have hheap : Heap Callo.cTime s.callout n := h.mono (by omega)
  have hpred : s.ncallout - 1 = n := by omega
  unfold delete Clock.Ordered Clock.agenda
  rw [hpred]
  by_cases hlast : f = n
  · rw [if_pos hlast, hlast, hn, contents_succ, Multiset.erase_cons_head]
    exact ⟨hheap, rfl⟩
  have hfn : f < n := by omega
  rw [if_neg hlast, if_pos (by omega), hn]
  by_cases hup : 0 < f ∧ (s.callout n).cTime < (s.callout ((f - 1) / 2)).cTime
  · -- the entries below `f` are later than the parent of `f`, and so than the one that goes up
    have hbelow : Below Callo.cTime s.callout n f (s.callout n).cTime := fun i hi hpos hi' =>
      le_trans (le_of_lt hup.2) ((hheap.hole f).bridge hup.1 i hi hpos hi')
    have hreplace := (heapUp_ok hfn (hheap.hole f) hbelow).replace hfn
    simp only [if_pos hup]
    refine ⟨hreplace.1, ?_⟩
    rw [← hreplace.2]
  · have habove : Above Callo.cTime s.callout f (s.callout n).cTime := fun hpos =>
      not_lt.mp fun hlt => hup ⟨hpos, hlt⟩
    have hreplace := (heapDown_ok hfn (hheap.hole f) habove).replace hfn
    simp only [if_neg hup]
    refine ⟨hreplace.1, ?_⟩
    rw [← hreplace.2]

theorem takeFirst_eq : takeFirst s = (s.callout 0, delete s 0) := by
  unfold takeFirst delete
  by_cases hone : 0 < s.ncallout - 1
  · have hroot : ¬ (0 < 0 ∧ (s.callout (s.ncallout - 1)).cTime <
        (s.callout ((0 - 1) / 2)).cTime) := fun h => lt_irrefl 0 h.1
    simp only [if_pos hone, if_neg hone.ne, if_neg hroot]
  · rw [if_neg hone, if_pos (by omega)]

theorem search_some (h : search s id = some f) : f < s.ncallout ∧ (s.callout f).cId = id := by
  have hmem := mem_of_find?_eq_some h
  have hfound := List.find?_some h
  exact ⟨mem_range.mp hmem, of_decide_eq_true hfound⟩

theorem search_none (h : search s id = none) : ∀ e ∈ s.agenda.pending, e.cId ≠ id := by
  intro e he
  obtain ⟨i, hi, heq⟩ := mem_contents.mp he
  have hnone := List.find?_eq_none.mp h i (mem_range.mpr hi)
  rw [← heq]
  exact fun hid => hnone (decide_eq_true hid)

theorem mem_pending (hf : f < s.ncallout) : s.callout f ∈ s.agenda.pending :=
  mem_contents.mpr ⟨f, hf, rfl⟩

theorem first_le (h : s.Ordered) : ∀ e ∈ s.agenda.pending, (s.callout 0).cTime ≤ e.cTime := by
  intro e he
  obtain ⟨i, hi, heq⟩ := mem_contents.mp he
  rw [← heq]
  exact h.first hi

/-- Every step keeps the heap and does to the agenda what it should. -/
theorem step_ok {vCall : Nat} {event : Event} (h : s.Ordered) (hstep : Step vCall s event s') :
    s'.Ordered ∧ Agenda.Step s.agenda event s'.agenda := by
  cases hstep with
  | tick => exact ⟨h, Agenda.Step.tick⟩
  | timeout hfits heq =>
    obtain ⟨hordered, hid, -, hagenda⟩ := timeout_ok h hfits heq
    rw [hagenda]
    exact ⟨hordered, Agenda.Step.timeout (hid ▸ nextId_ne)⟩
  | untimeout =>
    rename_i id
    unfold untimeout
    cases hsearch : search s id with
    | none => exact ⟨h, Agenda.Step.missing (search_none hsearch)⟩
    | some f =>
      obtain ⟨hf, hid⟩ := search_some hsearch
      obtain ⟨hordered, hagenda⟩ := delete_ok h hf
      refine ⟨hordered, ?_⟩
      rw [hagenda, ← hid]
      exact Agenda.Step.cancel (mem_pending hf)
  | timein => exact ⟨h, Agenda.Step.timein⟩
  | call _ hdue =>
    obtain ⟨hordered, hagenda⟩ := delete_ok h hdue.2
    rw [takeFirst_eq]
    refine ⟨hordered, ?_⟩
    rw [hagenda]
    exact Agenda.Step.call (mem_pending hdue.2) hdue.1 (first_le h)
  | ret _ hdue =>
    refine ⟨h, Agenda.Step.ret fun e he => ?_⟩
    have hpos : 0 < s.ncallout := by
      obtain ⟨i, hi, -⟩ := mem_contents.mp he
      omega
    exact lt_of_lt_of_le (not_le.mp fun hle => hdue ⟨hle, hpos⟩) (first_le h e he)

/-! ### Runs -/

def Event.made : Event → Option Callo
  | .timeout _ _ _ e => some e
  | _ => none

def Event.gone : Event → Option Callo
  | .untimeout _ gone => gone
  | _ => none

def Event.done : Event → Option Callo
  | .call e => some e
  | _ => none

def scheduled (events : List Event) : List Callo := events.filterMap Event.made

def cancelled (events : List Event) : List Callo := events.filterMap Event.gone

def called (events : List Event) : List Callo := events.filterMap Event.done

def Event.NotPast : Event → Prop
  | .timeout _ _ tim _ => 0 ≤ tim
  | _ => True

variable {a a' : Agenda} {event : Event} {events : List Event} {vCall : Nat}

theorem run_ok (h : s.Ordered) (hrun : Exec (Step vCall) s events s') :
    s'.Ordered ∧ Exec Agenda.Step s.agenda events s'.agenda := by
  induction hrun with
  | nil => exact ⟨h, Exec.nil _⟩
  | snoc _ hstep ih =>
    obtain ⟨hordered, hagenda⟩ := step_ok ih.1 hstep
    exact ⟨hordered, ih.2.snoc hagenda⟩

theorem step_account (hstep : Agenda.Step a event a') :
    a.pending + (event.made.toList : Multiset Callo) =
      a'.pending + (event.gone.toList : Multiset Callo) + (event.done.toList : Multiset Callo) := by
  cases hstep with
  | tick => simp [Event.made, Event.gone, Event.done]
  | timeout _ => simp [Event.made, Event.gone, Event.done, ← Multiset.singleton_add, add_comm]
  | cancel hmem =>
    simp [Event.made, Event.gone, Event.done, add_comm _ {_}, Multiset.singleton_add,
      Multiset.cons_erase hmem]
  | missing _ => simp [Event.made, Event.gone, Event.done]
  | timein => simp [Event.made, Event.gone, Event.done]
  | call hmem _ _ =>
    simp [Event.made, Event.gone, Event.done, add_comm _ {_}, Multiset.singleton_add,
      Multiset.cons_erase hmem]
  | ret _ => simp [Event.made, Event.gone, Event.done]

/-- What was pending or made is pending, cancelled or called, each entry in one of these ways. -/
theorem account (hrun : Exec Agenda.Step a events a') : a.pending + (scheduled events : Multiset Callo) =
      a'.pending + (cancelled events : Multiset Callo) + (called events : Multiset Callo) := by
  induction hrun with
  | nil => simp [scheduled, cancelled, called]
  | @snoc a₁ a₂ events event _ hstep ih =>
    have hlast := step_account hstep
    unfold scheduled cancelled called at ih ⊢
    rw [filterMap_snoc, filterMap_snoc, filterMap_snoc, ← Multiset.coe_add, ← Multiset.coe_add,
      ← Multiset.coe_add]
    calc a.pending + ((events.filterMap Event.made : Multiset Callo) + event.made.toList)
        = (a₁.pending + event.made.toList) + (events.filterMap Event.gone : Multiset Callo) +
            (events.filterMap Event.done : Multiset Callo) := by
          rw [← add_assoc, ih]
          ac_rfl
      _ = a₂.pending + ((events.filterMap Event.gone : Multiset Callo) + event.gone.toList) +
            ((events.filterMap Event.done : Multiset Callo) + event.done.toList) := by
          rw [hlast]
          ac_rfl

section

variable (hstep : Agenda.Step a event a')
include hstep

theorem step_lbolt : a.lbolt ≤ a'.lbolt := by
  cases hstep with
  | tick => exact Int.le_add_one (le_refl _)
  | _ => exact le_refl _

/-- No step makes anything pending that is earlier than `t`, when `t` is past and nothing pending is
earlier. -/
theorem step_later (hpast : event.NotPast) (ht : t ≤ a.lbolt)
    (h : ∀ e ∈ a.pending, t ≤ e.cTime) : ∀ e ∈ a'.pending, t ≤ e.cTime := by
  cases hstep with
  | tick => exact h
  | timeout _ =>
    intro e he
    rcases Multiset.mem_cons.mp he with heq | hmem
    · rw [heq]
      exact le_trans ht (Int.le_add_of_nonneg_right hpast)
    · exact h e hmem
  | cancel _ => exact fun e he => h e (Multiset.mem_of_mem_erase he)
  | missing _ => exact h
  | timein => exact h
  | call _ _ _ => exact fun e he => h e (Multiset.mem_of_mem_erase he)
  | ret _ => exact h

theorem step_done (he : event.done = some e) :
    e.cTime ≤ a.lbolt ∧ e ∈ a.pending ∧ ∀ e' ∈ a.pending, e.cTime ≤ e'.cTime := by
  cases hstep with
  | call hmem hdue hleast =>
    cases he
    exact ⟨hdue, hmem, hleast⟩
  | _ => cases he

end

/-- While nothing is made for the past, calls come in the order of their times. -/
theorem called_sorted (hrun : Exec Agenda.Step a events a') (hpast : ∀ event ∈ events, event.NotPast) :
    (called events).Pairwise (fun e e' => e.cTime ≤ e'.cTime) ∧
      ∀ e ∈ called events, e.cTime ≤ a'.lbolt ∧ ∀ e' ∈ a'.pending, e.cTime ≤ e'.cTime := by
  induction hrun with
  | nil => exact ⟨List.Pairwise.nil, fun e he => absurd he (not_mem_nil)⟩
  | @snoc a₁ a₂ events event _ hstep ih =>
    obtain ⟨hsorted, hbound⟩ := ih fun event hevent => hpast event (mem_append_left _ hevent)
    have hnow : event.NotPast := hpast event (mem_append_right _ (mem_singleton_self _))
    have hlbolt := step_lbolt hstep
    unfold called at hsorted hbound ⊢
    rw [filterMap_snoc]
    constructor
    · refine pairwise_append.mpr ⟨hsorted, ?_, fun e he e' he' => ?_⟩
      · cases event.done with
        | none => exact List.Pairwise.nil
        | some e => exact pairwise_singleton _ _
      · have hdone := step_done hstep (mem_toList.mp he')
        exact (hbound e he).2 e' hdone.2.1
    · intro e he
      rcases mem_append.mp he with hold | hnew
      · obtain ⟨hle, hleast⟩ := hbound e hold
        exact ⟨le_trans hle hlbolt, step_later hstep hnow hle hleast⟩
      · obtain ⟨hle, -, hleast⟩ := step_done hstep (mem_toList.mp hnew)
        exact ⟨le_trans hle hlbolt, step_later hstep hnow hle hleast⟩

theorem delete_timeid : (delete s f).timeid = s.timeid := by
  unfold delete
  by_cases hlast : f = s.ncallout - 1
  · rw [if_pos hlast]
  · by_cases hpos : 0 < s.ncallout - 1
    · simp only [if_neg hlast, if_pos hpos]
    · simp only [if_neg hlast, if_neg hpos]

/-- A step makes an entry under the next id, or makes none. -/
theorem step_made (h : s.Ordered) (hstep : Step vCall s event s') :
    (∃ e, event.made = some e ∧ e.cId = nextId s.timeid ∧ s'.timeid = nextId s.timeid ∧
      s'.agenda.pending = e ::ₘ s.agenda.pending) ∨
    (event.made = none ∧ s'.timeid = s.timeid ∧ s'.agenda.pending ≤ s.agenda.pending) := by
  have hmade : event.made = none → s'.agenda.pending ≤ s.agenda.pending := by
    intro hnone
    have haccount := step_account (step_ok h hstep).2
    rw [hnone, toList_none, Multiset.coe_nil, add_zero] at haccount
    rw [haccount, add_assoc]
    exact Multiset.le_add_right _ _
  cases hstep with
  | timeout hfits heq =>
    obtain ⟨-, hid, htimeid, hagenda⟩ := timeout_ok h hfits heq
    refine .inl ⟨_, rfl, hid, htimeid.trans hid, ?_⟩
    rw [hagenda]
  | untimeout =>
    rename_i id
    refine .inr ⟨rfl, ?_, hmade rfl⟩
    unfold untimeout
    cases search s id with
    | none => rfl
    | some f => exact delete_timeid
  | call =>
    refine .inr ⟨rfl, ?_, hmade rfl⟩
    rw [takeFirst_eq]
    exact delete_timeid
  | _ => exact .inr ⟨rfl, rfl, hmade rfl⟩

theorem nextId_eq (h : id + 1 < word) : nextId id = id + 1 := by
  unfold nextId
  rw [mod_eq_of_lt h, if_neg (succ_ne_zero id)]

theorem boot_ordered {lbolt : Int} : (boot callout lbolt).Ordered := by
  intro i hi
  exact absurd hi (not_lt_zero i)

/-- Until the ids come round again no two entries have the same. -/
theorem ids_ok {lbolt : Int} (hrun : Exec (Step vCall) (boot callout lbolt) events s)
    (hfew : (scheduled events).length < word) :
    s.timeid = (scheduled events).length ∧ (∀ e ∈ s.agenda.pending, e.cId ≤ s.timeid) ∧
      (s.agenda.pending.map Callo.cId).Nodup := by
  generalize hboot : boot callout lbolt = s₀ at hrun
  induction hrun with
  | nil =>
    rw [← hboot]
    exact ⟨rfl, fun e he => absurd he (Multiset.notMem_zero e), Multiset.nodup_zero⟩
  | snoc hrun' hstep ih =>
    have hordered : Clock.Ordered _ := (run_ok (hboot ▸ boot_ordered) hrun').1
    unfold scheduled at hfew ih ⊢
    rw [filterMap_snoc, length_append] at hfew ⊢
    obtain ⟨htimeid, hle, hnodup⟩ := ih (by omega)
    rcases step_made hordered hstep with ⟨e, hmade, hid, htimeid', hpending⟩ | ⟨hmade, htimeid',
      hpending⟩
    · rw [hmade, toList_some, length_singleton] at hfew ⊢
      rw [nextId_eq (htimeid ▸ hfew)] at hid htimeid'
      rw [htimeid', hpending, htimeid]
      refine ⟨rfl, fun e' he' => ?_, ?_⟩
      · rcases Multiset.mem_cons.mp he' with heq | hmem
        · rw [heq, hid, htimeid]
        · exact le_succ_of_le (htimeid ▸ hle e' hmem)
      · rw [Multiset.map_cons, Multiset.nodup_cons]
        refine ⟨fun hmem => ?_, hnodup⟩
        obtain ⟨e', he', heq⟩ := Multiset.mem_map.mp hmem
        have hle' := hle e' he'
        omega
    · rw [hmade, toList_none, length_nil, htimeid']
      exact ⟨htimeid, fun e he => hle e (Multiset.mem_of_le hpending he),
        Multiset.nodup_of_le (Multiset.map_le_map hpending) hnodup⟩

/-! ### A function that schedules another for the past -/

theorem timeout_empty {fn arg : Nat} {tim : Int} (h : s.ncallout = 0) (hv : vCall ≠ 0) :
    timeout vCall s fn arg tim = some ({ s with
      ncallout := 1
      timeid := nextId s.timeid
      callout := update s.callout 0
        ⟨time (s.lbolt + tim), nextId s.timeid, arg, fn⟩ }, nextId s.timeid) := by
  simp [timeout, h, heapUp, hv.symm]

def lateEntry (t : Int) (id : Nat) : Callo := ⟨t, id, 0, 0⟩

def lateTable (e : Callo) (n id depth : Nat) : Clock :=
  ⟨update (fun _ => lateEntry 0 0) 0 e, n, id, 5, depth⟩

/-- An entry for time 5 is called then, and its function makes one for time 4, which is called
next. -/
def lateEvents : List Event :=
  [.timeout 0 0 0 (lateEntry 5 1), .timein, .call (lateEntry 5 1),
    .timeout 0 0 (-1) (lateEntry 4 2), .call (lateEntry 4 2)]

theorem late_run : Exec (Step 1) (boot (fun _ => lateEntry 0 0) 5) lateEvents
    (lateTable (lateEntry 4 2) 0 2 1) := by
  have hmake : Step 1 (boot (fun _ => lateEntry 0 0) 5) (.timeout 0 0 0 (lateEntry 5 1))
      (lateTable (lateEntry 5 1) 1 1 0) :=
    Step.timeout rfl (timeout_empty rfl (by decide))
  have hcall : Step 1 (lateTable (lateEntry 5 1) 1 1 1) (.call (lateEntry 5 1))
      (lateTable (lateEntry 5 1) 0 1 1) :=
    Step.call (by decide) ⟨by decide, by decide⟩
  have hagain : Step 1 (lateTable (lateEntry 5 1) 0 1 1) (.timeout 0 0 (-1) (lateEntry 4 2))
      (lateTable (lateEntry 4 2) 1 2 1) := by
    have htable : lateTable (lateEntry 4 2) 1 2 1 = { lateTable (lateEntry 5 1) 0 1 1 with
        ncallout := 1
        timeid := 2
        callout := update (lateTable (lateEntry 5 1) 0 1 1).callout 0 (lateEntry 4 2) } := by
      simp only [lateTable, update_idem]
    rw [htable]
    exact Step.timeout rfl (timeout_empty rfl (by decide))
  have hlast : Step 1 (lateTable (lateEntry 4 2) 1 2 1) (.call (lateEntry 4 2))
      (lateTable (lateEntry 4 2) 0 2 1) :=
    Step.call (by decide) ⟨by decide, by decide⟩
  exact Exec.snoc (Exec.snoc (Exec.snoc (Exec.snoc (Exec.single hmake) Step.timein) hcall) hagain) hlast

/-! ### The table over whole runs -/

/-- In every run from an empty table: the table is a heap, and the agenda it stands for goes through
the run as it should, so that every entry made is pending, cancelled or called, once. The ids of
pending entries are distinct until 2^32 have been given. Over any stretch in which no function is
scheduled for the past, functions are called in the order of their times. -/
theorem callout_run {lbolt : Int} (hrun : Exec (Step vCall) (boot callout lbolt) events s) :
    (∀ i < s.ncallout, 0 < i → (s.callout ((i - 1) / 2)).cTime ≤ (s.callout i).cTime) ∧
    Exec Agenda.Step ⟨0, lbolt⟩ events s.agenda ∧ (scheduled events : Multiset Callo) =
      s.agenda.pending + (cancelled events : Multiset Callo) + (called events : Multiset Callo) ∧
    ((scheduled events).length < word → (s.agenda.pending.map Callo.cId).Nodup) ∧
    ∀ events' s', Exec (Step vCall) s events' s' → (∀ event ∈ events', event.NotPast) →
      (called events').Pairwise fun e e' => e.cTime ≤ e'.cTime := by
  obtain ⟨hordered, hagenda⟩ := run_ok boot_ordered hrun
  refine ⟨hordered, hagenda, ?_, fun hfew => (ids_ok hrun hfew).2.2, fun events' s' hrun' hpast => ?_⟩
  · have haccount := account hagenda
    rwa [show (boot callout lbolt).agenda.pending = 0 from rfl, zero_add] at haccount
  · exact (called_sorted (run_ok hordered hrun').2 hpast).1

theorem callout_run_late : Exec Agenda.Step ⟨0, 5⟩ lateEvents ⟨0, 5⟩ ∧
    (scheduled lateEvents : Multiset Callo) = called lateEvents := by
  obtain ⟨-, hagenda, haccount, -, -⟩ := callout_run late_run
  refine ⟨hagenda, haccount.trans ?_⟩
  decide

theorem late_function : ∃ s, Exec (Step 1) (boot (fun _ => lateEntry 0 0) 5) lateEvents s ∧
    ¬ (called lateEvents).Pairwise fun e e' => e.cTime ≤ e'.cTime :=
  ⟨_, late_run, by decide⟩

end Svr42.Callout
