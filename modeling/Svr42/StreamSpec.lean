import Svr42.StreamCount

/-! What each operation does to a queue in order: the messages it leaves, the queue behind, and that
the order and the counts are kept. -/

namespace Svr42.Strm
open List Option

/-! ### More passes change nothing -/

section

variable {avail : Nat → Bool} {fuel fuel' : Nat} {st : State} {bp : Nat} {stay : Msg → Bool}
  {links : DList Nat} {t : Nat}

theorem pastBands_more (h : pastBands fuel st stay = some t) (hle : fuel ≤ fuel') :
    pastBands fuel' st stay = some t := by
  rw [pastBands, bind_eq_some_iff] at h ⊢
  obtain ⟨tmp, hhigh, hstay⟩ := h
  exact ⟨tmp, DList.skip_more hhigh hle, DList.skip_more hstay hle⟩

theorem linkByBand_more (h : linkByBand fuel st bp stay = some links) (hle : fuel ≤ fuel') :
    linkByBand fuel' st bp stay = some links := by
  rw [linkByBand, bind_eq_some_iff] at h ⊢
  obtain ⟨tmp, hlast, h⟩ := h
  refine ⟨tmp, hlast, ?_⟩
  split at h
  · rename_i hcond
    rw [if_pos hcond]
    exact h
  · rename_i hcond
    rw [if_neg hcond]
    obtain ⟨t, ht, heq⟩ := map_eq_some_iff.mp h
    rw [pastBands_more ht hle, map_some, heq]

theorem putqLinks_more (h : putqLinks fuel st bp = some links) (hle : fuel ≤ fuel') :
    putqLinks fuel' st bp = some links := by
  simp only [putqLinks] at h ⊢
  split at h
  · rename_i hcond
    rw [if_pos hcond]
    exact h
  · rename_i hcond
    rw [if_neg hcond]
    split at h
    · rename_i hband
      rw [if_pos hband]
      rw [bind_eq_some_iff] at h ⊢
      obtain ⟨tmp, hlast, h⟩ := h
      refine ⟨tmp, hlast, ?_⟩
      split at h
      · rename_i hcls
        rw [if_pos hcls]
        exact h
      · rename_i hcls
        rw [if_neg hcls]
        obtain ⟨t, ht, heq⟩ := map_eq_some_iff.mp h
        rw [DList.skip_more ht hle, map_some, heq]
    · rename_i hband
      rw [if_neg hband]
      rw [bind_eq_some_iff] at h ⊢
      obtain ⟨qbp, hqbp, h⟩ := h
      refine ⟨qbp, hqbp, ?_⟩
      split at h
      · rename_i hnone
        rw [if_pos hnone]
        exact linkByBand_more h hle
      · rename_i hnone
        rw [if_neg hnone]
        exact h

theorem putbqLinks_more (h : putbqLinks fuel st bp = some links) (hle : fuel ≤ fuel') :
    putbqLinks fuel' st bp = some links := by
  simp only [putbqLinks] at h ⊢
  split at h
  · rename_i hcond
    rw [if_pos hcond]
    exact h
  · rename_i hcond
    rw [if_neg hcond]
    split at h
    · rename_i hband
      rw [if_pos hband]
      exact linkByBand_more h hle
    · rename_i hband
      rw [if_neg hband]
      rw [bind_eq_some_iff] at h ⊢
      obtain ⟨qbp, hqbp, h⟩ := h
      refine ⟨qbp, hqbp, ?_⟩
      cases hfirst : qbp.qbFirst with
      | none =>
        rw [hfirst] at h
        exact linkByBand_more h hle
      | some tmp =>
        rw [hfirst] at h
        exact h

theorem putq_more {r : State × Bool} (h : putq avail fuel st bp = some r) (hle : fuel ≤ fuel') :
    putq avail fuel' st bp = some r := by
  unfold putq at h ⊢
  split at h
  · exact h
  · obtain ⟨links, hlinks, heq⟩ := map_eq_some_iff.mp h
    rw [putqLinks_more hlinks hle, map_some, heq]

theorem putbq_more {r : State × Bool} (h : putbq avail fuel st bp = some r) (hle : fuel ≤ fuel') :
    putbq avail fuel' st bp = some r := by
  unfold putbq at h ⊢
  split at h
  · exact h
  · obtain ⟨links, hlinks, heq⟩ := map_eq_some_iff.mp h
    rw [putbqLinks_more hlinks hle, map_some, heq]

theorem pastNoget_more {o r : Option Nat} (h : pastNoget st fuel o = some r) (hle : fuel ≤ fuel') :
    pastNoget st fuel' o = some r := by
  induction fuel generalizing fuel' o with
  | zero => cases h
  | succ fuel ih =>
    obtain ⟨fuel', rfl⟩ : ∃ k, fuel' = k + 1 := ⟨fuel' - 1, by omega⟩
    cases o with
    | none => exact h
    | some bp =>
      rw [pastNoget] at h ⊢
      split at h
      · rename_i hnoget
        rw [if_pos hnoget]
        exact ih h (by omega)
      · rename_i hnoget
        rw [if_neg hnoget]
        exact h

theorem getq_more {r : State × Option Nat} (h : getq avail fuel st = some r) (hle : fuel ≤ fuel') :
    getq avail fuel' st = some r := by
  unfold getq at h ⊢
  split at h
  · exact h
  · split at h
    · rename_i hnoget
      rw [if_pos hnoget]
      obtain ⟨o, ho, heq⟩ := map_eq_some_iff.mp h
      rw [pastNoget_more ho hle, map_some, ← heq]
    · rename_i hnoget
      rw [if_neg hnoget]
      exact h

theorem flushLoop_more {drop : Msg → Bool} {n n' : Nat} {o : Option Nat} {st' : State}
    (h : flushLoop avail fuel drop n o st = some st') (hle : fuel ≤ fuel') (hn : n ≤ n') :
    flushLoop avail fuel' drop n' o st = some st' := by
  induction n generalizing n' o st with
  | zero => cases h
  | succ n ih =>
    obtain ⟨n', rfl⟩ : ∃ k, n' = k + 1 := ⟨n' - 1, by omega⟩
    cases o with
    | none => exact h
    | some mp =>
      simp only [flushLoop] at h ⊢
      split at h
      · rename_i hdrop
        rw [if_pos hdrop]
        exact ih h (by omega)
      · rename_i hdrop
        rw [if_neg hdrop]
        obtain ⟨r, hr, h⟩ := bind_eq_some_iff.mp h
        rw [putq_more hr hle]
        exact ih h (by omega)

variable {flag : Bool}

theorem flushq_more {st' : State} (h : flushq avail fuel st flag = some st') (hle : fuel ≤ fuel') :
    flushq avail fuel' st flag = some st' := by
  rw [flushq, map_eq_some_iff] at h ⊢
  obtain ⟨st₁, hloop, heq⟩ := h
  exact ⟨st₁, flushLoop_more hloop hle hle, heq⟩

theorem bandLoop_more {pri n n' : Nat} {last o : Option Nat} {st' : State}
    (h : bandLoop avail pri flag last n o st = some st') (hn : n ≤ n') :
    bandLoop avail pri flag last n' o st = some st' := by
  induction n generalizing n' o st with
  | zero => cases h
  | succ n ih =>
    obtain ⟨n', rfl⟩ : ∃ k, n' = k + 1 := ⟨n' - 1, by omega⟩
    unfold bandLoop at h ⊢
    split at h
    · rename_i hlast
      rw [if_pos hlast]
      exact h
    · rename_i hlast
      rw [if_neg hlast]
      cases o with
      | none => cases h
      | some mp => exact ih h (by omega)

theorem flushband_more {pri : Nat} {st' : State} (h : flushband avail fuel st pri flag = some st')
    (hle : fuel ≤ fuel') : flushband avail fuel' st pri flag = some st' := by
  unfold flushband at h ⊢
  split at h
  · rename_i hnband
    rw [if_pos hnband]
    exact h
  · rename_i hnband
    rw [if_neg hnband]
    split at h
    · rename_i hpri
      rw [if_pos hpri]
      obtain ⟨st₁, hloop, heq⟩ := map_eq_some_iff.mp h
      rw [flushLoop_more hloop hle hle, map_some, heq]
    · rename_i hpri
      rw [if_neg hpri]
      obtain ⟨qbp, hqbp, h⟩ := bind_eq_some_iff.mp h
      rw [hqbp, bind_some]
      cases hfirst : qbp.qbFirst with
      | none =>
        rw [hfirst] at h
        exact h
      | some mp =>
        rw [hfirst] at h
        obtain ⟨st₁, hloop, heq⟩ := map_eq_some_iff.mp h
        dsimp only at hloop ⊢
        rw [bandLoop_more hloop hle, map_some]
        exact congrArg some heq

end

/-! ### The queue behind -/

/-- From `st` to `st'` only the queue behind changes. It has been back-enabled for the bands
`bands`, if there is one and no call of `allocband` failed. -/
def Behind (avail : Nat → Bool) (st st' : State) (bands : List Nat) : Prop :=
  ∃ back calls l, st' = { st with back := back, calls := calls, log := st.log ++ l } ∧
    st.calls ≤ calls ∧ back.isSome = st.back.isSome ∧
    (st.back.isSome = true → (∀ i, st.calls ≤ i → i < calls → avail i = true) →
      ∀ b ∈ bands, b ∈ l)

section

variable {avail : Nat → Bool} {st st' st'' : State} {bands bands' : List Nat} {pri : Nat}

theorem Behind.refl : Behind avail st st [] :=
  ⟨st.back, st.calls, [], by rw [append_nil], Nat.le_refl _, rfl, by simp⟩

theorem Behind.trans (h : Behind avail st st' bands) (h' : Behind avail st' st'' bands') :
    Behind avail st st'' (bands ++ bands') := by
  obtain ⟨back, calls, l, rfl, hcalls, hsome, hwoken⟩ := h
  obtain ⟨back', calls', l', rfl, hcalls', hsome', hwoken'⟩ := h'
  refine ⟨back', calls', l ++ l', by rw [append_assoc], Nat.le_trans hcalls hcalls',
    hsome'.trans hsome, fun hback havail b hb => ?_⟩
  rcases mem_append.mp hb with hb | hb
  · exact mem_append_left _
      (hwoken hback (fun i hi hlt => havail i hi (Nat.lt_of_lt_of_le hlt hcalls')) b hb)
  · exact mem_append_right _ (hwoken' (hsome.trans hback)
      (fun i hi hlt => havail i (Nat.le_trans hcalls hi) hlt) b hb)

theorem Behind.weaken (h : Behind avail st st' bands) (hsub : ∀ b ∈ bands', b ∈ bands) :
    Behind avail st st' bands' := by
  obtain ⟨back, calls, l, heq, hcalls, hsome, hwoken⟩ := h
  exact ⟨back, calls, l, heq, hcalls, hsome, fun hback havail b hb =>
    hwoken hback havail b (hsub b hb)⟩

theorem Behind.of_none (h : st.back = none) : Behind avail st st bands :=
  ⟨st.back, st.calls, [], by rw [append_nil], Nat.le_refl _, rfl, by simp [h]⟩

theorem setqback_behind {nq : Queue} (h : st.back.isSome = true) :
    Behind avail st (setqback avail st nq pri) [pri] := by
  unfold setqback
  split_ifs with hpri
  · exact ⟨_, _, [0], rfl, Nat.le_refl _, h.symm, by simp [hpri]⟩
  · cases hgrow : nq.growBands avail (pri - nq.bandp.length) st.calls with
    | mk q r =>
      obtain ⟨calls, ok⟩ := r
      obtain ⟨k, -, -, -, hcalls, hfail⟩ := Queue.growBands_ok hgrow
      cases ok with
      | false =>
        refine ⟨some q, calls, [], by rw [append_nil], hcalls, h.symm, fun _ havail => ?_⟩
        obtain ⟨i, hi, hlt, hno⟩ := hfail rfl
        rw [havail i hi hlt] at hno
        cases hno
      | true => exact ⟨_, calls, [pri], rfl, hcalls, h.symm, fun _ _ b hb => hb⟩

theorem backEnable_behind (avail : Nat → Bool) (st : State) (pri : Nat) :
    Behind avail st (backEnable avail st pri) [pri] := by
  unfold backEnable
  split
  · rename_i hback
    exact Behind.of_none hback
  · rename_i nq hback
    exact setqback_behind (by rw [hback]; rfl)

theorem wakeWriters_behind (avail : Nat → Bool) (st : State) (pri : Nat) (wantw : Bool) :
    Behind avail { st with q := if wantw = true then st.q.modifyFlow pri Flow.clearWantw else st.q }
      (wakeWriters avail st pri wantw) (if wantw = true then [pri] else []) := by
  simp only [wakeWriters]
  by_cases hw : wantw = true
  · simp only [if_pos hw]
    split
    · exact ((backEnable_behind ..).trans (backEnable_behind _ _ 0)).weaken fun b hb =>
        mem_append_left _ hb
    · exact backEnable_behind ..
  · simp only [if_neg hw]
    split
    · exact (backEnable_behind _ _ 0).weaken (by simp)
    · exact Behind.refl

theorem setqbacks_behind {qbf : Nat → Bool} {bpri : Nat} :
    Behind avail st (setqbacks avail qbf bpri st) ((List.range bpri).filter qbf) := by
  unfold setqbacks
  generalize List.range bpri = l
  induction l generalizing st with
  | nil => exact Behind.refl
  | cons i l ih =>
    rw [foldl_cons, filter_cons]
    by_cases hi : qbf i = true
    · rw [if_pos hi, if_pos hi]
      cases hback : st.back with
      | none =>
        have hnone : Behind avail st st [i] := Behind.of_none hback
        exact hnone.trans ih
      | some nq =>
        exact (setqback_behind (by rw [hback]; rfl)).trans ih
    · rw [if_neg hi, if_neg hi]
      exact ih

end

end Svr42.Strm
