import Mathlib.Data.Fintype.EquivFin
import Mathlib.Order.WellFounded

/-! Processes that wait for each other. Nothing here knows what they wait for; an instance says what a
process holds, what it asks for, and what asking for one thing leads to. -/

namespace Svr42

variable {Proc Node : Type*}

def Deadlocked (waits : Proc → Proc → Prop) (S : Finset Proc) : Prop :=
  S.Nonempty ∧ ∀ p ∈ S, ∃ q ∈ S, waits p q

theorem Deadlocked.cycle {waits : Proc → Proc → Prop} {S : Finset Proc} (h : Deadlocked waits S) :
    ∃ p, Relation.TransGen (fun p q => p ∈ S ∧ q ∈ S ∧ waits p q) p p := by
  by_contra hnone
  have hirrefl : ∀ p, ¬ Relation.TransGen (fun p q => p ∈ S ∧ q ∈ S ∧ waits p q) p p :=
    fun p hp => hnone ⟨p, hp⟩
  -- without a cycle, waiting for somebody would end somewhere
  let before : S → S → Prop := fun q p =>
    Relation.TransGen (fun p q => p ∈ S ∧ q ∈ S ∧ waits p q) p.1 q.1
  have hirr : Std.Irrefl before := ⟨fun p hp => hirrefl p.1 hp⟩
  have hwf : WellFounded before := Finite.wellFounded_of_trans_of_irrefl before
  obtain ⟨p₀, hp₀⟩ := h.1
  obtain ⟨p, -, hmin⟩ := hwf.has_min Set.univ ⟨⟨p₀, hp₀⟩, trivial⟩
  obtain ⟨q, hq, hwaits⟩ := h.2 p.1 p.2
  exact hmin ⟨q, hq⟩ trivial (Relation.TransGen.single ⟨p.2, hq, hwaits⟩)

/-- What a waiting process holds leads to what it asks for, and what it asks for never back to what it
holds: then nobody waits forever. -/
theorem not_deadlocked {waits : Proc → Proc → Prop} {asks : Proc → Node} {holds : Proc → Node → Prop}
    {leads : Node → Node → Prop} {S : Finset Proc}
    (hheld : ∀ p q r, waits p q → waits q r → holds q (asks p))
    (hon : ∀ q r, waits q r → ∀ a, holds q a → Relation.ReflTransGen leads a (asks q))
    (hback : ∀ p q r, waits p q → waits q r → ∀ a, holds p a →
      ¬ Relation.ReflTransGen leads (asks p) a) : ¬ Deadlocked waits S := by
  intro h
  obtain ⟨p, hp⟩ := h.cycle
  have hpath : ∀ q, Relation.ReflTransGen (fun p q => p ∈ S ∧ q ∈ S ∧ waits p q) p q → q ∈ S →
      Relation.ReflTransGen leads (asks p) (asks q) := by
    intro q hq
    induction hq with
    | refl => exact fun _ => Relation.ReflTransGen.refl
    | @tail q r _ hqr ih =>
      intro hr
      obtain ⟨u, -, hru⟩ := h.2 r hr
      exact (ih hqr.1).trans (hon r u hru _ (hheld q r u hqr.2.2 hru))
  obtain ⟨q, hq, hqp⟩ := Relation.TransGen.tail'_iff.mp hp
  obtain ⟨r, hr, hpr⟩ := h.2 p hqp.2.1
  obtain ⟨u, -, hru⟩ := h.2 r hr
  exact hback p r u hpr hru (asks q) (hheld q p r hqp.2.2 hpr) (hpath q hq hqp.1)

end Svr42
