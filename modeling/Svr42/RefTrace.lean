import Mathlib.Data.List.Basic

/-! What a procedure does with what it refers to: the references it takes and gives up, the checks it
makes, and what it does once they are made. Nothing here knows what is referred to. -/

namespace Svr42

/-- A check comes out with an error code, or with 0. -/
inductive Call (Ref Act : Type*) where
  | hold (ref : Ref)
  | rele (ref : Ref)
  | check (error : Nat)
  | act (act : Act)

/-- What a procedure returns, and what it has called. -/
structure Return (Ref Act : Type*) where
  error : Nat
  calls : List (Call Ref Act)

namespace Call

variable {Ref Act : Type*} {calls calls' : List (Call Ref Act)} {n error : Nat} {ref : Ref}

/-- How many references to `ref` are left of `n`, if none is given up that is not there. -/
@[simp] def refs [DecidableEq Ref] (ref : Ref) : List (Call Ref Act) → Nat → Option Nat
  | [], n => some n
  | hold r :: calls, n => refs ref calls (if r = ref then n + 1 else n)
  | rele r :: calls, n =>
      if r = ref then (if n = 0 then none else refs ref calls (n - 1)) else refs ref calls n
  | check _ :: calls, n => refs ref calls n
  | act _ :: calls, n => refs ref calls n

/-- The first check that failed. -/
@[simp] def firstError : List (Call Ref Act) → Nat
  | [] => 0
  | check error :: calls => if error = 0 then firstError calls else error
  | _ :: calls => firstError calls

@[simp] def acts : List (Call Ref Act) → List Act
  | [] => []
  | act a :: calls => a :: acts calls
  | _ :: calls => acts calls

/-- A reference that is taken, and what is done before it is given up. -/
theorem refs_append [DecidableEq Ref] :
    refs ref (calls ++ calls') n = (refs ref calls n).bind (refs ref calls') := by
  induction calls generalizing n with
  | nil => rfl
  | cons call calls ih =>
    cases call with
    | hold r => exact ih
    | rele r =>
      rw [List.cons_append, refs, refs]
      by_cases hr : r = ref
      · rw [if_pos hr, if_pos hr]
        by_cases hn : n = 0
        · rw [if_pos hn, if_pos hn]
          rfl
        · rw [if_neg hn, if_neg hn]
          exact ih
      · rw [if_neg hr, if_neg hr]
        exact ih
    | check error => exact ih
    | act a => exact ih

theorem firstError_append :
    firstError (calls ++ calls') = if firstError calls = 0 then firstError calls' else firstError calls := by
  induction calls with
  | nil => rfl
  | cons call calls ih =>
    cases call with
    | hold r => exact ih
    | rele r => exact ih
    | check error =>
      rw [List.cons_append, firstError, firstError, ih]
      by_cases herror : error = 0
      · rw [if_pos herror, if_pos herror]
      · rw [if_neg herror, if_neg herror, if_neg herror]
    | act a => exact ih

theorem acts_append : acts (calls ++ calls') = acts calls ++ acts calls' := by
  induction calls with
  | nil => rfl
  | cons call calls ih =>
    cases call with
    | hold r => exact ih
    | rele r => exact ih
    | check error => exact ih
    | act a => exact congrArg (List.cons a) ih

/-- Nothing but checks, of which this is the first error. -/
structure Checks [DecidableEq Ref] (calls : List (Call Ref Act)) (error : Nat) : Prop where
  firstError : firstError calls = error
  acts : acts calls = []
  refs : ∀ ref n, refs ref calls n = some n

namespace Checks

variable [DecidableEq Ref]

theorem nil : Checks ([] : List (Call Ref Act)) 0 := ⟨rfl, rfl, fun _ _ => rfl⟩

theorem one (error : Nat) : Checks ([check error] : List (Call Ref Act)) error := by
  refine ⟨?_, rfl, fun _ _ => rfl⟩
  rw [Call.firstError, Call.firstError]
  by_cases herror : error = 0
  · rw [if_pos herror, herror]
  · rw [if_neg herror]

theorem cons (h : Checks calls error) : Checks (check 0 :: calls) error :=
  ⟨h.firstError, h.acts, h.refs⟩

end Checks

end Call

variable {Ref Act : Type*} [DecidableEq Ref] {checks : List (Call Ref Act)} {error : Nat}

/-- The error of the first check that failed is returned, and nothing is done then; every reference that
was taken is given up, once. -/
structure Return.Respects (r : Return Ref Act) : Prop where
  failed : Call.firstError r.calls ≠ 0 → r.error = Call.firstError r.calls ∧ Call.acts r.calls = []
  refs : ∀ ref, Call.refs ref r.calls 0 = some 0

theorem Return.respects_nil (error : Nat) : (⟨error, []⟩ : Return Ref Act).Respects :=
  ⟨fun h => absurd rfl h, fun _ => rfl⟩

/-- References are taken, the checks are made, and then the rest is done. -/
theorem Return.respects_iff (front rest : List (Call Ref Act)) (hchecks : Call.Checks checks error)
    (hfront : Call.firstError front = 0 ∧ Call.acts front = []) (hrest : Call.firstError rest = 0)
    (hrefs : ∀ ref, Call.refs ref (front ++ rest) 0 = some 0) (result : Nat) :
    (⟨result, front ++ (checks ++ rest)⟩ : Return Ref Act).Respects ↔
      (error ≠ 0 → result = error ∧ Call.acts rest = []) := by
  have herror : Call.firstError (front ++ (checks ++ rest)) = error := by
    rw [Call.firstError_append, if_pos hfront.1, Call.firstError_append, hchecks.firstError, hrest]
    by_cases hzero : error = 0
    · rw [if_pos hzero, hzero]
    · rw [if_neg hzero]
  have hacts : Call.acts (front ++ (checks ++ rest)) = Call.acts rest := by
    rw [Call.acts_append, Call.acts_append, hfront.2, hchecks.acts]
    rfl
  have hsame : ∀ ref, Call.refs ref (front ++ (checks ++ rest)) 0 = some 0 := by
    intro ref
    rw [← hrefs ref, Call.refs_append, Call.refs_append]
    congr 1
    funext n
    rw [Call.refs_append, hchecks.refs, Option.bind_some]
  constructor
  · intro h hne
    have hfailed := h.failed
    rw [herror, hacts] at hfailed
    exact hfailed hne
  · intro h
    refine ⟨?_, hsame⟩
    rw [herror, hacts]
    exact h

end Svr42
