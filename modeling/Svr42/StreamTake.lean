import Svr42.StreamOps

/-! Messages taken off a queue, one by one or by a flush. -/

namespace Svr42.Strm
open List

/-- A writer that was refused waits still: the band is full, or the count is above the low-water
mark. -/
def Flow.Wants (f : Flow) : Prop := f.wantw = true ∧ (f.full = true ∨ f.lowat < f.count)

/-- The writers that wait in `q` wait in `q'`, but for those of the bands `bands`. -/
def Waits (q q' : Queue) (bands : List Nat) : Prop :=
  ∀ pri f, q.flowOf pri = some f → f.Wants →
    pri ∈ bands ∨ ∃ f', q'.flowOf pri = some f' ∧ f'.Wants

/-- What taking a message off does. -/
structure Take (e : Prop) (avail : Nat → Bool) (st st' : State) (ys : List Nat) : Prop where
  inv : Inv e st' ys
  behind : ∃ links q bands, Behind avail { st with links := links, q := q } st' bands ∧
    Waits st.q q bands

section

variable {e : Prop} {avail : Nat → Bool} {st st' : State} {xs ys pre post : List Nat}
  {bp mp fuel : Nat} {m : Msg} {q q' : Queue} {bands : List Nat}

theorem Waits.refl : Waits q q bands := fun _ f hf hw => .inr ⟨f, hf, hw⟩

theorem Waits.of_flowOf (h : Waits q q' bands) {q₀ q₁ : Queue} (h₀ : ∀ c, q₀.flowOf c = q.flowOf c)
    (h₁ : ∀ c, q₁.flowOf c = q'.flowOf c) : Waits q₀ q₁ bands := by
  intro pri f hf hw
  rw [h₀] at hf
  rcases h pri f hf hw with hin | ⟨f', hf', hw'⟩
  · exact .inl hin
  · exact .inr ⟨f', by rw [h₁, hf'], hw'⟩

/-! ### One message -/

def down (q : Queue) (m : Msg) : Bool :=
  ((q.discharge m).flowOf m.bBand).any fun f => f.count ≤ f.lowat

def wanted (q : Queue) (pri : Nat) : Bool := (q.flowOf pri).any fun f => f.wantw

/-- The queue after the bytes of the message have gone and its writers have been woken. -/
def uncharged (q : Queue) (m : Msg) : Queue :=
  if down q m = true ∧ wanted q m.bBand = true then
    (q.discharge m).modifyFlow m.bBand Flow.clearWantw
  else q.discharge m

theorem unaccount_behind (avail : Nat → Bool) (st : State) (mp : Nat) :
    Behind avail { st with q := uncharged st.q (st.msg mp) } (unaccount avail st mp)
      (if down st.q (st.msg mp) = true ∧ wanted st.q (st.msg mp).bBand = true then
        [(st.msg mp).bBand] else []) := by
  simp only [unaccount]
  change Behind avail _ (if down st.q (st.msg mp) = true then
    wakeWriters avail _ _ (wanted st.q (st.msg mp).bBand) else _) _
  by_cases hdown : down st.q (st.msg mp) = true
  · rw [if_pos hdown]
    have hwake := wakeWriters_behind avail { st with q := st.q.discharge (st.msg mp) }
      (st.msg mp).bBand (wanted st.q (st.msg mp).bBand)
    by_cases hwanted : wanted st.q (st.msg mp).bBand = true
    · rw [if_pos hwanted, if_pos hwanted] at hwake
      rw [uncharged, if_pos ⟨hdown, hwanted⟩, if_pos ⟨hdown, hwanted⟩]
      exact hwake
    · rw [if_neg hwanted, if_neg hwanted] at hwake
      have hnot := fun h : down st.q (st.msg mp) = true ∧ wanted st.q (st.msg mp).bBand = true =>
        hwanted h.2
      rw [uncharged, if_neg hnot, if_neg hnot]
      exact hwake
  · have hnot := fun h : down st.q (st.msg mp) = true ∧ wanted st.q (st.msg mp).bBand = true =>
      hdown h.1
    rw [if_neg hdown, uncharged, if_neg hnot, if_neg hnot]
    exact Behind.refl

theorem waits_uncharged : Waits q (uncharged q m)
    (if down q m = true ∧ wanted q m.bBand = true then [m.bBand] else []) := by
  intro pri f hf hw
  by_cases hpri : pri = m.bBand
  · have hf' : (q.discharge m).flowOf pri = some (f.sub m.sizes).clearFull := by
      rw [Queue.flowOf_discharge, if_pos hpri, hf]
      rfl
    have hwanted : wanted q m.bBand = true := by
      rw [wanted, ← hpri, hf]
      exact hw.1
    by_cases hdown : down q m = true
    · left
      rw [if_pos ⟨hdown, hwanted⟩, hpri]
      exact mem_singleton_self _
    right
    rw [uncharged, if_neg fun h => hdown h.1]
    refine ⟨_, hf', ?_, .inr ?_⟩
    · rw [Flow.wantw_clearFull, Flow.wantw_sub]
      exact hw.1
    · rw [down, ← hpri, hf'] at hdown
      rw [Option.any_some, decide_eq_true_eq] at hdown
      omega
  · right
    refine ⟨f, ?_, hw⟩
    unfold uncharged
    split
    · rw [Queue.flowOf_modifyFlow, if_neg hpri, Queue.flowOf_discharge, if_neg hpri, hf]
    · rw [Queue.flowOf_discharge, if_neg hpri, hf]

theorem sameCounts_uncharged : SameCounts (q.discharge m) (uncharged q m) := by
  unfold uncharged
  split
  · exact SameCounts.modifyFlow fun _ => ⟨rfl, rfl, rfl⟩
  · exact ⟨fun pri f hf => ⟨f, hf, rfl, rfl, rfl⟩, rfl, rfl⟩

theorem ends_uncharged : (uncharged q m).bandp.map Qband.ends = q.bandp.map Qband.ends := by
  unfold uncharged
  split
  · rw [Queue.ends_modifyFlow, Queue.ends_discharge]
  · exact Queue.ends_discharge

theorem unaccount_take {links : DList Nat} (h : Inv e st (pre ++ mp :: post)) (hq : st.q.SameFlows q)
    (hshape : Shape links st.msg q.bandp (pre ++ post)) :
    Take e avail st (unaccount avail { st with links := links, q := q } mp) (pre ++ post) := by
  have hnband : q.bandp.length ≤ 255 := hshape.nband
  have hcounted : Counted (q.discharge (st.msg mp)) st.msg (pre ++ post) :=
    (h.counted.same hq.counts).discharge hnband
  have hexact : e → Exact (q.discharge (st.msg mp)) st.msg (pre ++ post) := fun he =>
    ((h.exact he).same hq.counts).discharge (h.counted.same hq.counts)
  have hbehind := unaccount_behind avail { st with links := links, q := q } mp
  refine ⟨hbehind.inv ⟨?_, ?_, fun he => ?_⟩, links, _, _, hbehind, ?_⟩
  · exact hshape.congr ends_uncharged
  · exact hcounted.same sameCounts_uncharged
  · exact (hexact he).same sameCounts_uncharged
  · exact waits_uncharged.of_flowOf (fun c => (hq.flowOf).symm) fun _ => rfl

theorem rmvq_take (avail : Nat → Bool) (h : Inv e st (pre ++ mp :: post)) :
    Take e avail st (rmvq avail st mp) (pre ++ post) :=
  unaccount_take h rmvqEnds_sameFlows (rmvq_shape h.shape)

theorem pastNoget_ok {front : List Nat} (h : st.links.Spells (front ++ xs)) (hfuel : xs.length < fuel) :
    (pastNoget st fuel xs.head? = some none ∧ ∀ a ∈ xs, (st.msg a).noget = true) ∨
      ∃ pre mp post, pastNoget st fuel xs.head? = some (some mp) ∧ xs = pre ++ mp :: post ∧
        (∀ a ∈ pre, (st.msg a).noget = true) ∧ (st.msg mp).noget = false := by
  induction xs generalizing front fuel with
  | nil =>
    obtain ⟨fuel, rfl⟩ : ∃ k, fuel = k + 1 := ⟨fuel - 1, by simp at hfuel; omega⟩
    exact .inl ⟨rfl, by simp⟩
  | cons a xs ih =>
    obtain ⟨fuel, rfl⟩ : ∃ k, fuel = k + 1 := ⟨fuel - 1, by simp at hfuel; omega⟩
    rw [head?_cons, pastNoget]
    split_ifs with hnoget
    · rw [(h.links front a xs rfl).1]
      have hspells : st.links.Spells ((front ++ [a]) ++ xs) := by simpa using h
      rcases ih hspells (by simpa using hfuel) with ⟨heq, hall⟩ | ⟨pre, mp, post, heq, rfl, hpre, hmp⟩
      · refine .inl ⟨heq, fun b hb => ?_⟩
        rcases mem_cons.mp hb with rfl | hb
        · exact hnoget
        · exact hall b hb
      · refine .inr ⟨a :: pre, mp, post, heq, rfl, fun b hb => ?_, hmp⟩
        rcases mem_cons.mp hb with rfl | hb
        · exact hnoget
        · exact hpre b hb
    · exact .inr ⟨[], a, xs, rfl, rfl, by simp, by simpa using hnoget⟩

/-- `getq` takes the first message that is not marked MSGNOGET. -/
theorem getq_take (avail : Nat → Bool) (fuel : Nat) (h : Inv e st xs) (hfuel : xs.length < fuel) :
    ∃ st' r ys, getq avail fuel st = some (st', r) ∧ Take e avail st st' ys ∧
      ((r = none ∧ ys = xs ∧ ∀ a ∈ xs, (st.msg a).noget = true) ∨
        ∃ pre mp post, r = some mp ∧ xs = pre ++ mp :: post ∧ ys = pre ++ post ∧
          (∀ a ∈ pre, (st.msg a).noget = true) ∧ (st.msg mp).noget = false) := by
  have hfirst := h.shape.spells.first
  unfold getq
  cases xs with
  | nil =>
    rw [head?_nil] at hfirst
    rw [hfirst]
    have hbehind := wakeWriters_behind avail { st with q := { st.q with wantr := true } } 0
      st.q.flow.wantw
    have hcounts : SameCounts { st.q with wantr := true } (if st.q.flow.wantw = true then
          Queue.modifyFlow { st.q with wantr := true } 0 Flow.clearWantw
        else { st.q with wantr := true }) := by
      split
      · exact SameCounts.modifyFlow fun _ => ⟨rfl, rfl, rfl⟩
      · exact ⟨fun pri f hf => ⟨f, hf, rfl, rfl, rfl⟩, rfl, rfl⟩
    have hcounts' : SameCounts st.q (if st.q.flow.wantw = true then
          Queue.modifyFlow { st.q with wantr := true } 0 Flow.clearWantw
        else { st.q with wantr := true }) :=
      ⟨fun pri f hf => hcounts.flow pri f hf, hcounts.blocked, hcounts.fulls⟩
    refine ⟨_, none, [], rfl, ⟨hbehind.inv (h.same rfl rfl ?_ hcounts'), _, _, _, hbehind, ?_⟩,
      .inl ⟨rfl, rfl, by simp⟩⟩
    · split
      · exact Queue.ends_modifyFlow
      · rfl
    · intro pri f hf hw
      by_cases hpri : pri = 0
      · left
        subst hpri
        rw [Queue.flowOf_zero] at hf
        cases hf
        rw [if_pos hw.1]
        exact mem_singleton_self _
      · right
        refine ⟨f, ?_, hw⟩
        split
        · rw [Queue.flowOf_modifyFlow, if_neg hpri]
          exact hf
        · exact hf
  | cons bp xs =>
    rw [head?_cons] at hfirst
    rw [hfirst]
    dsimp only
    split_ifs with hnoget
    · have hspells : st.links.Spells ([] ++ bp :: xs) := h.shape.spells
      rcases pastNoget_ok hspells hfuel with ⟨heq, hall⟩ | ⟨pre, mp, post, heq, hxs, hpre, hmp⟩
      · rw [head?_cons] at heq
        rw [heq]
        exact ⟨st, none, bp :: xs, rfl,
          ⟨h, st.links, st.q, [], Behind.refl, Waits.refl⟩, .inl ⟨rfl, rfl, hall⟩⟩
      · rw [head?_cons] at heq
        rw [heq]
        rw [hxs] at h
        exact ⟨_, some mp, pre ++ post, rfl, rmvq_take avail h,
          .inr ⟨pre, mp, post, rfl, hxs, rfl, hpre, hmp⟩⟩
    · have h' : Inv e st ([] ++ bp :: xs) := h
      have hflows : st.q.SameFlows (getqEnds st bp) := getqEnds_sameFlows
      have hwantr := unaccount_behind avail { st with
        links := st.links.unlinkFirst bp, q := { getqEnds st bp with wantr := false } } bp
      have hnband : (getqEnds st bp).bandp.length ≤ 255 := (getq_shape h.shape).nband
      have hcounts : SameCounts (getqEnds st bp) { getqEnds st bp with wantr := false } :=
        ⟨fun pri f hf => ⟨f, hf, rfl, rfl, rfl⟩, rfl, rfl⟩
      have hcounted : Counted { getqEnds st bp with wantr := false } st.msg ([] ++ bp :: xs) :=
        (h.counted.same hflows.counts).same hcounts
      refine ⟨_, some bp, xs, rfl, ⟨hwantr.inv ⟨?_, ?_, fun he => ?_⟩, _, _, _, hwantr, ?_⟩,
        .inr ⟨[], bp, xs, rfl, rfl, rfl, by simp, by simpa using hnoget⟩⟩
      · exact (getq_shape h.shape).congr ends_uncharged
      · exact (hcounted.discharge hnband).same sameCounts_uncharged
      · exact ((((h'.exact he).same hflows.counts).same hcounts).discharge hcounted).same
          sameCounts_uncharged
      · exact waits_uncharged.of_flowOf (fun c => hflows.flowOf.symm) fun _ => rfl

end

end Svr42.Strm
