import Svr42.StreamShape

/-! The bytes on a queue. The count of a band is a sum of message sizes modulo the size of an
unsigned long, the mark of a full band follows the count, and `q_blocked` counts these marks. -/

namespace Svr42.Strm
open Bool List Nat

def Msg.size (m : Msg) : Nat := m.sizes.foldr (fun n count => n + count) 0

def load (msg : Nat → Msg) (pri : Nat) : List Nat → Nat
  | [] => 0
  | a :: xs => (if (msg a).bBand = pri then (msg a).size else 0) + load msg pri xs

section

variable {msg msg' : Nat → Msg} {xs ys pre post : List Nat} {bp pri : Nat}

theorem load_append : load msg pri (xs ++ ys) = load msg pri xs + load msg pri ys := by
  induction xs with
  | nil => rw [nil_append, load, Nat.zero_add]
  | cons a xs ih => rw [cons_append, load, load, ih, Nat.add_assoc]

theorem load_insert : load msg pri (pre ++ bp :: post) =
    load msg pri (pre ++ post) + if (msg bp).bBand = pri then (msg bp).size else 0 := by
  rw [load_append, load_append, load]
  omega

theorem load_congr (h : ∀ a ∈ xs, msg' a = msg a) : load msg' pri xs = load msg pri xs := by
  induction xs with
  | nil => rfl
  | cons a xs ih =>
    rw [load, load, h a (.head _), ih fun b hb => h b (.tail _ hb)]

theorem load_sublist (h : xs.Sublist ys) : load msg pri xs ≤ load msg pri ys := by
  induction h with
  | slnil => exact Nat.le_refl _
  | cons a _ ih =>
    rw [load]
    omega
  | cons_cons a _ ih =>
    rw [load, load]
    omega

theorem load_eq_zero (h : ∀ a ∈ xs, (msg a).bBand ≠ pri) : load msg pri xs = 0 := by
  induction xs with
  | nil => rfl
  | cons a xs ih =>
    rw [load, if_neg (h a (.head _)), ih fun b hb => h b (.tail _ hb)]

end

/-! ### The flow control of one band -/

namespace Flow

variable {f : Flow} {sizes : List Nat}

theorem count_add (h : f.count < ulong) :
    (f.add sizes).count = (f.count + sizes.foldr (fun n count => n + count) 0) % ulong := by
  unfold add
  generalize hc : f.count = c at h
  clear hc
  induction sizes generalizing c with
  | nil => exact (Nat.mod_eq_of_lt h).symm
  | cons n sizes ih =>
    rw [foldl_cons, foldr_cons, ih _ (Nat.mod_lt _ (by decide)), Nat.mod_add_mod, Nat.add_assoc]

theorem count_sub {n : Nat} (h : f.count = n % ulong)
    (hle : sizes.foldr (fun n count => n + count) 0 ≤ n) :
    (f.sub sizes).count = (n - sizes.foldr (fun n count => n + count) 0) % ulong := by
  change sizes.foldl _ f.count = _
  generalize f.count = c at h
  induction sizes generalizing c n with
  | nil => exact h
  | cons s sizes ih =>
    rw [foldr_cons] at hle ⊢
    have hstep : (c + (ulong - s % ulong)) % ulong = (n - s) % ulong := by
      unfold ulong at *
      omega
    have hrest : sizes.foldr (fun n count => n + count) 0 ≤ n - s := by omega
    rw [foldl_cons, ih hrest _ hstep, Nat.sub_sub]

@[simp]
theorem hiwat_add : (f.add sizes).hiwat = f.hiwat := rfl

@[simp]
theorem lowat_add : (f.add sizes).lowat = f.lowat := rfl

@[simp]
theorem full_add : (f.add sizes).full = f.full := rfl

@[simp]
theorem wantw_add : (f.add sizes).wantw = f.wantw := rfl

@[simp]
theorem hiwat_sub : (f.sub sizes).hiwat = f.hiwat := rfl

@[simp]
theorem full_sub : (f.sub sizes).full = f.full := rfl

@[simp]
theorem wantw_sub : (f.sub sizes).wantw = f.wantw := rfl

@[simp]
theorem count_setFull : f.setFull.count = f.count := by
  unfold setFull
  split <;> rfl

@[simp]
theorem hiwat_setFull : f.setFull.hiwat = f.hiwat := by
  unfold setFull
  split <;> rfl

@[simp]
theorem lowat_setFull : f.setFull.lowat = f.lowat := by
  unfold setFull
  split <;> rfl

@[simp]
theorem wantw_setFull : f.setFull.wantw = f.wantw := by
  unfold setFull
  split <;> rfl

theorem full_setFull : f.setFull.full = true ↔ f.full = true ∨ f.hiwat ≤ f.count := by
  unfold setFull
  split
  · rename_i hle
    simp [hle]
  · rename_i hlt
    simp [hlt]

theorem setFull_of_not (h : ¬ (f.hiwat ≤ f.count ∧ f.full = false)) : f.setFull = f := by
  unfold setFull
  split
  · rename_i hle
    have hfull : f.full = true := by
      rw [← not_eq_false]
      exact fun hfull => h ⟨hle, hfull⟩
    rw [← hfull]
  · rfl

@[simp]
theorem count_clearFull : f.clearFull.count = f.count := by
  unfold clearFull
  split <;> rfl

@[simp]
theorem hiwat_clearFull : f.clearFull.hiwat = f.hiwat := by
  unfold clearFull
  split <;> rfl

@[simp]
theorem wantw_clearFull : f.clearFull.wantw = f.wantw := by
  unfold clearFull
  split <;> rfl

theorem full_clearFull : f.clearFull.full = true ↔ f.full = true ∧ f.hiwat ≤ f.count := by
  unfold clearFull
  split
  · simp only [false_eq_true, false_iff]
    omega
  · simp only [iff_self_and]
    omega

theorem clearFull_of_not (h : ¬ (f.count < f.hiwat ∧ f.full = true)) : f.clearFull = f := by
  unfold clearFull
  split
  · rename_i hlt
    have hfull : f.full = false := by
      rw [← not_eq_true]
      exact fun hfull => h ⟨hlt, hfull⟩
    rw [← hfull]
  · rfl

end Flow

/-! ### The bands of a queue -/

namespace Queue

variable {q q' : Queue} {pri c : Nat} {qbp : Qband} {g : Flow → Flow} {m : Msg}

theorem flowOf_zero : q.flowOf 0 = some q.flow := if_pos rfl

theorem flowOf_band (hpri : pri ≠ 0) : q.flowOf pri = (q.band pri).map Qband.flow := if_neg hpri

theorem le_of_flowOf {f : Flow} (h : q.flowOf pri = some f) : pri ≤ q.bandp.length := by
  by_cases hpri : pri = 0
  · omega
  rw [flowOf_band hpri, band, Option.map_eq_some_iff] at h
  obtain ⟨qbp, hqbp, -⟩ := h
  have := (List.getElem?_eq_some_iff.mp hqbp).1
  omega

def fulls (q : Queue) : Nat := q.bandp.countP fun qbp => qbp.flow.full

theorem fulls_le : q.fulls ≤ q.bandp.length := countP_le_length

theorem flowOf_setBand (hpri : pri ≠ 0) (h : q.band pri = some qbp) {qbp' : Qband} :
    (q.setBand pri qbp').flowOf c = if c = pri then some qbp'.flow else q.flowOf c := by
  have hlt := (List.getElem?_eq_some_iff.mp h).1
  by_cases hc : c = 0
  · subst hc
    rw [if_neg hpri.symm]
    rfl
  rw [flowOf_band hc, flowOf_band hc, band, setBand, List.getElem?_set]
  by_cases heq : c = pri
  · rw [if_pos heq, if_pos (by rw [heq]), if_pos hlt]
    rfl
  · rw [if_neg heq, if_neg (by omega)]
    rfl

theorem fulls_setBand (h : q.band pri = some qbp) (qbp' : Qband) :
    (q.setBand pri qbp').fulls + (if qbp.flow.full = true then 1 else 0) =
      q.fulls + if qbp'.flow.full = true then 1 else 0 := by
  obtain ⟨hlt, hget⟩ := List.getElem?_eq_some_iff.mp h
  have hpos : qbp.flow.full = true → 0 < q.fulls := fun hfull =>
    countP_pos_iff.mpr ⟨qbp, mem_of_getElem? h, hfull⟩
  rw [fulls, setBand, countP_set hlt, hget]
  change q.fulls - _ + _ + _ = _
  by_cases hfull : qbp.flow.full = true
  · have := hpos hfull
    simp only [hfull, if_true]
    omega
  · simp only [hfull]
    simp

theorem ends_setBand (h : q.band pri = some qbp) {qbp' : Qband} (hends : qbp'.ends = qbp.ends) :
    (q.setBand pri qbp').bandp.map Qband.ends = q.bandp.map Qband.ends := by
  apply ext_getElem?
  intro i
  rw [setBand, map_set, List.getElem?_set]
  split
  · rename_i heq
    subst heq
    rw [length_map, if_pos (List.getElem?_eq_some_iff.mp h).1, List.getElem?_map, hends]
    rw [band] at h
    rw [h, Option.map_some]
  · rfl

theorem SameFlows.flowOf (h : q.SameFlows q') : q'.flowOf c = q.flowOf c := by
  obtain ⟨bandp, rfl, hmap⟩ := h
  by_cases hc : c = 0
  · subst hc
    rfl
  · rw [flowOf_band hc, flowOf_band hc, band, band, ← List.getElem?_map, ← List.getElem?_map, hmap]

theorem SameFlows.fulls (h : q.SameFlows q') : q'.fulls = q.fulls := by
  obtain ⟨bandp, rfl, hmap⟩ := h
  have hcount : ∀ l : List Qband, l.countP (fun qbp => qbp.flow.full) =
      (l.map Qband.flow).countP fun f => f.full := fun l => by
    rw [countP_map]
    rfl
  rw [Queue.fulls, Queue.fulls, hcount, hcount, hmap]

theorem SameFlows.blocked (h : q.SameFlows q') : q'.blocked = q.blocked := by
  obtain ⟨bandp, rfl, -⟩ := h
  rfl

theorem flowOf_modifyFlow :
    (q.modifyFlow pri g).flowOf c = if c = pri then (q.flowOf c).map g else q.flowOf c := by
  unfold modifyFlow
  by_cases hpri : pri = 0
  · rw [if_pos hpri, hpri]
    by_cases hc : c = 0
    · rw [if_pos hc, hc]
      rfl
    · rw [if_neg hc, flowOf_band hc, flowOf_band hc]
      rfl
  rw [if_neg hpri]
  cases hqbp : q.band pri with
  | none =>
    by_cases hc : c = pri
    · rw [if_pos hc, hc, flowOf_band hpri, hqbp]
      rfl
    · rw [if_neg hc]
  | some qbp =>
    rw [flowOf_setBand hpri hqbp]
    by_cases hc : c = pri
    · rw [if_pos hc, if_pos hc, hc, flowOf_band hpri, hqbp]
      rfl
    · rw [if_neg hc, if_neg hc]

theorem fulls_modifyFlow (hg : ∀ f, (g f).full = f.full) : (q.modifyFlow pri g).fulls = q.fulls := by
  unfold modifyFlow
  split
  · rfl
  · split
    · rfl
    · rename_i _ qbp hqbp
      have := fulls_setBand hqbp { qbp with flow := g qbp.flow }
      rw [hg] at this
      omega

theorem ends_modifyFlow : (q.modifyFlow pri g).bandp.map Qband.ends = q.bandp.map Qband.ends := by
  unfold modifyFlow
  split
  · rfl
  · split
    · rfl
    · rename_i _ qbp hqbp
      exact ends_setBand hqbp rfl

theorem blocked_modifyFlow : (q.modifyFlow pri g).blocked = q.blocked := by
  unfold modifyFlow
  split
  · rfl
  · split <;> rfl

theorem flowOf_modifyFlows : (q.modifyFlows g).flowOf c = (q.flowOf c).map g := by
  by_cases hc : c = 0
  · subst hc
    rfl
  · rw [flowOf_band hc, flowOf_band hc, band, band, modifyFlows, List.getElem?_map]
    cases q.bandp[c - 1]? <;> rfl

theorem fulls_modifyFlows (hg : ∀ f, (g f).full = f.full) : (q.modifyFlows g).fulls = q.fulls := by
  rw [fulls, fulls, modifyFlows, countP_map]
  apply countP_congr
  intro qbp _
  simp [hg]

theorem ends_modifyFlows : (q.modifyFlows g).bandp.map Qband.ends = q.bandp.map Qband.ends := by
  rw [modifyFlows, map_map]
  rfl

@[simp]
theorem bandp_qenable : q.qenable.bandp = q.bandp := by
  unfold qenable
  split <;> rfl

@[simp]
theorem blocked_qenable : q.qenable.blocked = q.blocked := by
  unfold qenable
  split <;> rfl

@[simp]
theorem flowOf_qenable : q.qenable.flowOf c = q.flowOf c := by
  unfold qenable
  split <;> rfl

@[simp]
theorem fulls_qenable : q.qenable.fulls = q.fulls := by
  unfold qenable
  split <;> rfl

/-! ### Bytes put on and taken off -/

theorem charge_eq : q.charge m = { q.modifyFlow m.bBand fun f => (f.add m.sizes).setFull with
    blocked := (q.charge m).blocked } := by
  unfold charge modifyFlow
  split
  · rfl
  split
  · rfl
  dsimp only
  split
  · rename_i hcond
    rw [Flow.setFull, if_pos hcond.1]
  · rename_i hcond
    rw [Flow.setFull_of_not hcond]

theorem discharge_eq : q.discharge m = { q.modifyFlow m.bBand fun f => (f.sub m.sizes).clearFull with
    blocked := (q.discharge m).blocked } := by
  unfold discharge modifyFlow
  split
  · rfl
  split
  · rfl
  dsimp only
  split
  · rename_i hcond
    rw [Flow.clearFull, if_pos hcond.1]
  · rename_i hcond
    rw [Flow.clearFull_of_not hcond]

theorem flowOf_charge : (q.charge m).flowOf c =
      if c = m.bBand then (q.flowOf c).map fun f => (f.add m.sizes).setFull else q.flowOf c := by
  rw [charge_eq]
  exact flowOf_modifyFlow

theorem flowOf_discharge : (q.discharge m).flowOf c =
      if c = m.bBand then (q.flowOf c).map fun f => (f.sub m.sizes).clearFull else q.flowOf c := by
  rw [discharge_eq]
  exact flowOf_modifyFlow

theorem ends_charge : (q.charge m).bandp.map Qband.ends = q.bandp.map Qband.ends := by
  rw [charge_eq]
  exact ends_modifyFlow

theorem ends_discharge : (q.discharge m).bandp.map Qband.ends = q.bandp.map Qband.ends := by
  rw [discharge_eq]
  exact ends_modifyFlow

/-- `q_blocked` does not wrap. -/
theorem blocked_charge (h : q.blocked = q.fulls) (hn : q.bandp.length ≤ 255) :
    (q.charge m).blocked = (q.charge m).fulls := by
  have hlen : (q.charge m).bandp.length = q.bandp.length := by
    simpa using congrArg length (ends_charge (q := q) (m := m))
  have hle := (q.charge m).fulls_le
  rw [hlen] at hle
  revert hle
  simp only [charge]
  split
  · exact fun _ => h
  · split
    · exact fun _ => h
    · rename_i _ qbp hqbp
      split
      · rename_i hcond
        intro hle
        have hfull : qbp.flow.full = false := hcond.2
        have hset := fulls_setBand hqbp { qbp with flow := { qbp.flow.add m.sizes with full := true } }
        rw [hfull] at hset
        change (q.setBand m.bBand _).fulls ≤ _ at hle
        change (q.blocked + 1) % 256 = (q.setBand m.bBand _).fulls
        simp only [if_true, false_eq_true, if_false] at hset
        omega
      · intro _
        have hset := fulls_setBand hqbp { qbp with flow := qbp.flow.add m.sizes }
        change q.blocked = _
        rw [Flow.full_add] at hset
        omega

theorem blocked_discharge (h : q.blocked = q.fulls) (hn : q.bandp.length ≤ 255) :
    (q.discharge m).blocked = (q.discharge m).fulls := by
  have hle := q.fulls_le
  simp only [discharge]
  split
  · exact h
  · split
    · exact h
    · rename_i _ qbp hqbp
      split
      · rename_i hcond
        have hfull : qbp.flow.full = true := hcond.2
        have hset := fulls_setBand hqbp { qbp with flow := { qbp.flow.sub m.sizes with full := false } }
        rw [hfull] at hset
        change (q.blocked + 255) % 256 = (q.setBand m.bBand _).fulls
        simp only [if_true, false_eq_true, if_false] at hset
        omega
      · have hset := fulls_setBand hqbp { qbp with flow := qbp.flow.sub m.sizes }
        change q.blocked = _
        rw [Flow.full_sub] at hset
        omega

theorem length_of_ends (h : q'.bandp.map Qband.ends = q.bandp.map Qband.ends) :
    q'.bandp.length = q.bandp.length := by
  simpa using congrArg length h

end Queue

/-! ### The counts of a queue -/

/-- Every count is the bytes it stands for, modulo the size of an unsigned long. -/
structure Counted (q : Queue) (msg : Nat → Msg) (xs : List Nat) : Prop where
  count : ∀ pri f, q.flowOf pri = some f → f.count = load msg pri xs % ulong
  hiwat : ∀ pri f, q.flowOf pri = some f → 0 < f.hiwat
  blocked : q.blocked = q.fulls

/-- No count has wrapped, and every full band is marked and no other. -/
structure Exact (q : Queue) (msg : Nat → Msg) (xs : List Nat) : Prop where
  full : ∀ pri f, q.flowOf pri = some f → (f.full = true ↔ f.hiwat ≤ f.count)
  bound : ∀ pri, load msg pri xs < ulong

section

variable {q q' : Queue} {msg msg' : Nat → Msg} {xs pre post : List Nat} {bp mp : Nat}

theorem Counted.exact (h : Counted q msg xs) (hex : Exact q msg xs) {pri : Nat} {f : Flow}
    (hf : q.flowOf pri = some f) : f.count = load msg pri xs := by
  rw [h.count pri f hf, mod_eq_of_lt (hex.bound pri)]

theorem Counted.charge (h : Counted q msg (pre ++ post)) (hn : q.bandp.length ≤ 255) :
    Counted (q.charge (msg bp)) msg (pre ++ bp :: post) := by
  refine ⟨fun pri f hf => ?_, fun pri f hf => ?_, Queue.blocked_charge h.blocked hn⟩
  · rw [Queue.flowOf_charge] at hf
    rw [load_insert]
    split at hf
    · rename_i hpri
      obtain ⟨f, hf', rfl⟩ := Option.map_eq_some_iff.mp hf
      have hcount := h.count pri f hf'
      have hlt : f.count < ulong := by
        rw [hcount]
        exact mod_lt _ (by decide)
      rw [Flow.count_setFull, Flow.count_add hlt, if_pos hpri.symm, hcount, mod_add_mod]
      rfl
    · rename_i hpri
      rw [if_neg (Ne.symm hpri), Nat.add_zero]
      exact h.count pri f hf
  · rw [Queue.flowOf_charge] at hf
    split at hf
    · obtain ⟨f, hf', rfl⟩ := Option.map_eq_some_iff.mp hf
      rw [Flow.hiwat_setFull, Flow.hiwat_add]
      exact h.hiwat pri f hf'
    · exact h.hiwat pri f hf

theorem Counted.discharge (h : Counted q msg (pre ++ mp :: post)) (hn : q.bandp.length ≤ 255) :
    Counted (q.discharge (msg mp)) msg (pre ++ post) := by
  refine ⟨fun pri f hf => ?_, fun pri f hf => ?_, Queue.blocked_discharge h.blocked hn⟩
  · rw [Queue.flowOf_discharge] at hf
    split at hf
    · rename_i hpri
      obtain ⟨f, hf', rfl⟩ := Option.map_eq_some_iff.mp hf
      have hcount := h.count pri f hf'
      rw [load_insert, if_pos hpri.symm] at hcount
      have hle : (msg mp).size ≤ load msg pri (pre ++ post) + (msg mp).size := Nat.le_add_left _ _
      rw [Flow.count_clearFull, Flow.count_sub hcount hle]
      change (load msg pri (pre ++ post) + (msg mp).size - (msg mp).size) % ulong = _
      rw [Nat.add_sub_cancel]
    · rename_i hpri
      have hcount := h.count pri f hf
      rwa [load_insert, if_neg (Ne.symm hpri), Nat.add_zero] at hcount
  · rw [Queue.flowOf_discharge] at hf
    split at hf
    · obtain ⟨f, hf', rfl⟩ := Option.map_eq_some_iff.mp hf
      rw [Flow.hiwat_clearFull, Flow.hiwat_sub]
      exact h.hiwat pri f hf'
    · exact h.hiwat pri f hf

theorem Exact.charge (h : Exact q msg (pre ++ post)) (hcounted : Counted q msg (pre ++ post))
    (hfits : load msg (msg bp).bBand (pre ++ post) + (msg bp).size < ulong) :
    Exact (q.charge (msg bp)) msg (pre ++ bp :: post) := by
  refine ⟨fun pri f hf => ?_, fun pri => ?_⟩
  · rw [Queue.flowOf_charge] at hf
    split at hf
    · rename_i hpri
      obtain ⟨f, hf', rfl⟩ := Option.map_eq_some_iff.mp hf
      have hfull := h.full pri f hf'
      have hcount := hcounted.exact h hf'
      have hlt := h.bound pri
      have hadd : (f.add (msg bp).sizes).count = f.count + (msg bp).size := by
        rw [Flow.count_add (hcount ▸ hlt)]
        refine mod_eq_of_lt ?_
        rw [hcount, hpri]
        exact hfits
      rw [Flow.full_setFull, Flow.hiwat_setFull, Flow.count_setFull, Flow.full_add, hfull,
        Flow.hiwat_add, hadd]
      omega
    · exact h.full pri f hf
  · rw [load_insert]
    split
    · rename_i hpri
      rw [← hpri]
      exact hfits
    · exact h.bound pri

theorem Exact.discharge (h : Exact q msg (pre ++ mp :: post))
    (hcounted : Counted q msg (pre ++ mp :: post)) : Exact (q.discharge (msg mp)) msg (pre ++ post) := by
  have hbound : ∀ pri, load msg pri (pre ++ post) < ulong := fun pri =>
    Nat.lt_of_le_of_lt (load_sublist (by simp)) (h.bound pri)
  refine ⟨fun pri f hf => ?_, hbound⟩
  rw [Queue.flowOf_discharge] at hf
  split at hf
  · rename_i hpri
    obtain ⟨f, hf', rfl⟩ := Option.map_eq_some_iff.mp hf
    have hfull := h.full pri f hf'
    have hcount := hcounted.exact h hf'
    rw [load_insert, if_pos hpri.symm] at hcount
    have hsub : (f.sub (msg mp).sizes).count = f.count - (msg mp).size := by
      have hlt := h.bound pri
      rw [load_insert, if_pos hpri.symm, ← hcount] at hlt
      have hle : (msg mp).size ≤ f.count := by omega
      rw [Flow.count_sub (Nat.mod_eq_of_lt hlt).symm hle]
      exact Nat.mod_eq_of_lt (Nat.lt_of_le_of_lt (Nat.sub_le _ _) hlt)
    rw [Flow.full_clearFull, Flow.hiwat_clearFull, Flow.count_clearFull, Flow.full_sub, hfull,
      Flow.hiwat_sub, hsub]
    omega
  · exact h.full pri f hf

/-- What the counts look at is the same in `q'`. -/
structure SameCounts (q q' : Queue) : Prop where
  flow : ∀ pri f', q'.flowOf pri = some f' → ∃ f, q.flowOf pri = some f ∧ f'.count = f.count ∧
    f'.hiwat = f.hiwat ∧ f'.full = f.full
  blocked : q'.blocked = q.blocked
  fulls : q'.fulls = q.fulls

theorem Queue.SameFlows.counts (h : q.SameFlows q') : SameCounts q q' :=
  ⟨fun pri f hf => ⟨f, by rwa [h.flowOf] at hf, rfl, rfl, rfl⟩, h.blocked, h.fulls⟩

theorem SameCounts.qenable : SameCounts q q.qenable :=
  ⟨fun pri f hf => ⟨f, by rwa [Queue.flowOf_qenable] at hf, rfl, rfl, rfl⟩,
    Queue.blocked_qenable, Queue.fulls_qenable⟩

theorem SameCounts.modifyFlow {g : Flow → Flow} {pri : Nat}
    (hg : ∀ f, (g f).count = f.count ∧ (g f).hiwat = f.hiwat ∧ (g f).full = f.full) :
    SameCounts q (q.modifyFlow pri g) := by
  refine ⟨fun c f hf => ?_, Queue.blocked_modifyFlow, Queue.fulls_modifyFlow fun f => (hg f).2.2⟩
  rw [Queue.flowOf_modifyFlow] at hf
  split at hf
  · obtain ⟨f, hf', rfl⟩ := Option.map_eq_some_iff.mp hf
    exact ⟨f, hf', hg f⟩
  · exact ⟨f, hf, rfl, rfl, rfl⟩

theorem SameCounts.modifyFlows {g : Flow → Flow}
    (hg : ∀ f, (g f).count = f.count ∧ (g f).hiwat = f.hiwat ∧ (g f).full = f.full) :
    SameCounts q (q.modifyFlows g) := by
  refine ⟨fun c f hf => ?_, rfl, Queue.fulls_modifyFlows fun f => (hg f).2.2⟩
  rw [Queue.flowOf_modifyFlows] at hf
  obtain ⟨f, hf', rfl⟩ := Option.map_eq_some_iff.mp hf
  exact ⟨f, hf', hg f⟩

theorem Counted.same (h : Counted q msg xs) (hsame : SameCounts q q') : Counted q' msg xs := by
  refine ⟨fun pri f hf => ?_, fun pri f hf => ?_, ?_⟩
  · obtain ⟨f', hf', hcount, -⟩ := hsame.flow pri f hf
    rw [hcount]
    exact h.count pri f' hf'
  · obtain ⟨f', hf', -, hhiwat, -⟩ := hsame.flow pri f hf
    rw [hhiwat]
    exact h.hiwat pri f' hf'
  · rw [hsame.blocked, hsame.fulls]
    exact h.blocked

theorem Exact.same (h : Exact q msg xs) (hsame : SameCounts q q') : Exact q' msg xs := by
  refine ⟨fun pri f hf => ?_, h.bound⟩
  obtain ⟨f', hf', hcount, hhiwat, hfull⟩ := hsame.flow pri f hf
  rw [hcount, hhiwat, hfull]
  exact h.full pri f' hf'

theorem Counted.congr (h : Counted q msg xs) (hmsg : ∀ a ∈ xs, msg' a = msg a) : Counted q msg' xs := by
  refine ⟨fun pri f hf => ?_, h.hiwat, h.blocked⟩
  rw [load_congr hmsg]
  exact h.count pri f hf

theorem Exact.congr (h : Exact q msg xs) (hmsg : ∀ a ∈ xs, msg' a = msg a) : Exact q msg' xs := by
  refine ⟨h.full, fun pri => ?_⟩
  rw [load_congr hmsg]
  exact h.bound pri

end

/-! ### New bands -/

namespace Queue

variable {q : Queue} {n c : Nat}

def grown (q : Queue) (n : Nat) : Queue :=
  { q with bandp := q.bandp ++ List.replicate n q.newBand }

theorem grown_zero : q.grown 0 = q := by
  simp [grown]

theorem flowOf_grown_le (h : c ≤ q.bandp.length) : (q.grown n).flowOf c = q.flowOf c := by
  by_cases hc : c = 0
  · subst hc
    rfl
  · rw [flowOf_band hc, flowOf_band hc, band, grown, List.getElem?_append_left (by omega)]
    rfl

theorem flowOf_grown_gt (h : q.bandp.length < c) {f : Flow} (hf : (q.grown n).flowOf c = some f) :
    f = q.newBand.flow := by
  rw [flowOf_band (by omega), band, grown, List.getElem?_append_right (by omega),
    List.getElem?_replicate] at hf
  split at hf
  · exact (Option.some.inj hf).symm
  · cases hf

theorem fulls_grown : (q.grown n).fulls = q.fulls := by
  rw [fulls, fulls, grown, countP_append, countP_replicate]
  rfl

theorem grown_grown {k : Nat} : ((q.grown 1).grown k) = q.grown (k + 1) := by
  simp [grown, newBand, replicate_succ]

theorem growBands_ok {avail : Nat → Bool} {n calls calls' : Nat} {q' : Queue} {ok : Bool}
    (h : q.growBands avail n calls = (q', calls', ok)) :
    ∃ k, q' = q.grown k ∧ k ≤ n ∧ (ok = true → k = n) ∧ calls ≤ calls' ∧
      (ok = false → ∃ i, calls ≤ i ∧ i < calls' ∧ avail i = false) := by
  induction n generalizing q calls with
  | zero =>
    cases h
    exact ⟨0, grown_zero.symm, Nat.le_refl _, fun _ => rfl, Nat.le_refl _, by simp⟩
  | succ n ih =>
    rw [growBands] at h
    split at h
    · obtain ⟨k, hq, hk, hok, hcalls, hfail⟩ := ih h
      refine ⟨k + 1, ?_, by omega, fun h => by rw [hok h], by omega, fun h => ?_⟩
      · rw [hq, ← grown_grown]
        rfl
      · obtain ⟨i, hi, hi', havail⟩ := hfail h
        exact ⟨i, by omega, hi', havail⟩
    · rename_i havail
      cases h
      refine ⟨0, grown_zero.symm, Nat.zero_le _, by simp, Nat.le_succ _, fun _ => ?_⟩
      exact ⟨calls, Nat.le_refl _, Nat.lt_succ_self _, by simpa using havail⟩

end Queue

section

variable {links : DList Nat} {q : Queue} {msg : Nat → Msg} {xs : List Nat} {n : Nat}

theorem Counted.grown (h : Counted q msg xs) (hshape : Shape links msg q.bandp xs) :
    Counted (q.grown n) msg xs := by
  refine ⟨fun pri f hf => ?_, fun pri f hf => ?_, ?_⟩
  · by_cases hle : pri ≤ q.bandp.length
    · rw [Queue.flowOf_grown_le hle] at hf
      exact h.count pri f hf
    rw [Queue.flowOf_grown_gt (by omega) hf, load_eq_zero]
    · rfl
    · intro a ha
      have := (hshape.ok a ha).band
      omega
  · by_cases hle : pri ≤ q.bandp.length
    · rw [Queue.flowOf_grown_le hle] at hf
      exact h.hiwat pri f hf
    · rw [Queue.flowOf_grown_gt (by omega) hf]
      exact h.hiwat 0 q.flow Queue.flowOf_zero
  · rw [Queue.fulls_grown]
    exact h.blocked

theorem Exact.grown (h : Exact q msg xs) (hcounted : Counted q msg xs) : Exact (q.grown n) msg xs := by
  refine ⟨fun pri f hf => ?_, h.bound⟩
  by_cases hle : pri ≤ q.bandp.length
  · rw [Queue.flowOf_grown_le hle] at hf
    exact h.full pri f hf
  rw [Queue.flowOf_grown_gt (by omega) hf]
  have := hcounted.hiwat 0 q.flow Queue.flowOf_zero
  simp only [Queue.newBand, false_eq_true, false_iff]
  omega

end

end Svr42.Strm
