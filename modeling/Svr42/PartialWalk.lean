import Mathlib.Order.WellFoundedSet

/-! Walks along a partial function: when every one of them ends, and which changes of the function
keep it so. -/

namespace Svr42

open Relation

def Follows {α : Type*} (next : α → Option α) (a b : α) : Prop := next a = some b

/-- The walk from `a` comes to an end. -/
inductive Ends {α : Type*} (next : α → Option α) : α → Prop
  | stop {a : α} : next a = none → Ends next a
  | step {a b : α} : next a = some b → Ends next b → Ends next a

def NoCycle {α : Type*} (next : α → Option α) : Prop := ∀ a, ¬ TransGen (Follows next) a a

theorem Follows.cycle {α : Type*} {next : α → Option α} {a b : α} (h : Follows next a b)
    (hcycle : TransGen (Follows next) a a) : TransGen (Follows next) b b := by
  obtain ⟨c, hac, hca⟩ := TransGen.head'_iff.mp hcycle
  have hc : c = b := Option.some.inj (hac.symm.trans h)
  exact TransGen.tail' (hc ▸ hca) h

namespace NoCycle

variable {α : Type*} {next next' : α → Option α}

/-- Without cycles, a function that steps from finitely many points only has no walk without end. -/
theorem ends (h : NoCycle next) {S : Set α} (hfin : S.Finite) (hS : ∀ a b, next a = some b → a ∈ S)
    (a : α) : Ends next a := by
  have hirrefl : Std.Irrefl (TransGen (Function.swap (Follows next))) :=
    ⟨fun b hcycle => h b (transGen_swap.mp hcycle)⟩
  have hwf : S.WellFoundedOn (TransGen (Function.swap (Follows next))) := by
    have : IsStrictOrder α (TransGen (Function.swap (Follows next))) := {}
    exact hfin.wellFoundedOn
  have hin : ∀ b, b ∈ S → Ends next b := by
    intro b hb
    refine hwf.induction hb fun c _ ih => ?_
    cases hnext : next c with
    | none => exact Ends.stop hnext
    | some d =>
      refine Ends.step hnext ?_
      cases hnext' : next d with
      | none => exact Ends.stop hnext'
      | some e => exact ih d (hS d e hnext') (TransGen.single hnext)
  cases hnext : next a with
  | none => exact Ends.stop hnext
  | some b => exact hin a (hS a b hnext)

/-- A function that has no step of its own on its cycles, beside one without cycles, has none. -/
theorem of_agree (h : NoCycle next) (hagree : ∀ a, TransGen (Follows next') a a → next' a = next a) :
    NoCycle next' := by
  intro a hcycle
  have hwalk : ∀ b, ReflTransGen (Follows next') a b →
      ReflTransGen (Follows next) a b ∧ TransGen (Follows next') b b := by
    intro b hb
    induction hb with
    | refl => exact ⟨ReflTransGen.refl, hcycle⟩
    | tail _ hstep ih => exact ⟨ih.1.tail ((hagree _ ih.2).symm.trans hstep), hstep.cycle ih.2⟩
  obtain ⟨b, hab, hba⟩ := TransGen.tail'_iff.mp hcycle
  obtain ⟨hab', hcycle'⟩ := hwalk b hab
  exact h a (TransGen.tail' hab' ((hagree b hcycle').symm.trans hba))

theorem insert (h : NoCycle next) {p q : α} (hp : next' p = some q)
    (hother : ∀ a, a ≠ p → next' a = next a) (hreach : ¬ ReflTransGen (Follows next) q p) :
    NoCycle next' := by
  have hpath : ∀ a, ReflTransGen (Follows next') a p → ReflTransGen (Follows next) a p := by
    intro a ha
    induction ha using ReflTransGen.head_induction_on with
    | refl => exact ReflTransGen.refl
    | head hstep _ ih =>
      rename_i b c _
      by_cases hb : b = p
      · exact hb ▸ ReflTransGen.refl
      · exact ReflTransGen.head ((hother b hb).symm.trans hstep) ih
  refine h.of_agree fun a hcycle => hother a ?_
  rintro rfl
  obtain ⟨b, hab, hba⟩ := TransGen.head'_iff.mp hcycle
  have hq : b = q := Option.some.inj (hab.symm.trans hp)
  exact hreach (hpath q (hq ▸ hba))

end NoCycle

end Svr42
