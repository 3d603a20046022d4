import Svr42.StreamTake

/-! The flushes: the messages of a selection are freed, and the others stay in order. -/

namespace Svr42.Strm
open List Option

/-- What the loop of a flush does to the rest of the state. -/
structure Reput (st st' : State) (gone : List Nat) : Prop where
  frame : ∃ links q calls, st' =
    { st with links := links, q := q, calls := calls, freed := st.freed ++ gone }
  calls : st.calls ≤ st'.calls
  nband : st'.q.bandp.length = st.q.bandp.length
  flow : ∀ pri f, st.q.flowOf pri = some f → ∃ f', st'.q.flowOf pri = some f' ∧
    f'.wantw = f.wantw ∧ f'.lowat = f.lowat ∧ f'.hiwat = f.hiwat

section

variable {e : Prop} {avail : Nat → Bool} {st st' st'' : State} {xs ys pre post : List Nat}
  {bp mp fuel n pri : Nat} {m : Msg} {drop : Msg → Bool} {gone gone' : List Nat} {flag : Bool}

theorem Reput.refl : Reput st st [] :=
  ⟨⟨st.links, st.q, st.calls, by rw [append_nil]⟩, Nat.le_refl _, rfl,
    fun _ f hf => ⟨f, hf, rfl, rfl, rfl⟩⟩

theorem Reput.trans (h : Reput st st' gone) (h' : Reput st' st'' gone') :
    Reput st st'' (gone ++ gone') := by
  obtain ⟨links, q, calls, hst'⟩ := h.frame
  obtain ⟨links', q', calls', hst''⟩ := h'.frame
  refine ⟨⟨links', q', calls', ?_⟩, Nat.le_trans h.calls h'.calls, h'.nband.trans h.nband,
    fun pri f hf => ?_⟩
  · rw [hst'', hst', append_assoc]
  · obtain ⟨f', hf', hw, hl, hh⟩ := h.flow pri f hf
    obtain ⟨f'', hf'', hw', hl', hh'⟩ := h'.flow pri f' hf'
    exact ⟨f'', hf'', hw'.trans hw, hl'.trans hl, hh'.trans hh⟩

theorem reput_freemsg : Reput st (freemsg st mp) [mp] :=
  ⟨⟨st.links, st.q, st.calls, rfl⟩, Nat.le_refl _, rfl, fun _ f hf => ⟨f, hf, rfl, rfl, rfl⟩⟩

theorem Put.reput {ok : Bool} (h : Put e st st' bp ok ys) (hok : MsgOk st.q.bandp.length (st.msg bp)) :
    Reput st st' [] := by
  obtain ⟨links, q, calls, hst'⟩ := h.frame
  rw [Msg.norm_of_ok hok, Function.update_eq_self] at hst'
  refine ⟨⟨links, q, calls, by rw [append_nil]; exact hst'⟩, h.calls,
    (h.nband (by rw [Msg.norm_of_ok hok]; exact hok.band)).2, fun pri f hf => ?_⟩
  refine ⟨_, h.flow pri f hf, ?_⟩
  split
  · exact ⟨by rw [Flow.wantw_setFull, Flow.wantw_add], by rw [Flow.lowat_setFull, Flow.lowat_add],
      by rw [Flow.hiwat_setFull, Flow.hiwat_add]⟩
  · exact ⟨rfl, rfl, rfl⟩

/-- The loop goes along the old list. What it has put on again is in order before the rest, so that
each message goes to the end, and the links of the rest are still the old ones. -/
theorem flushLoop_ok (avail : Nat → Bool) (drop : Msg → Bool) {rest : List Nat} (h : Inv e st ys) (hnodup : (ys ++ rest).Nodup)
    (hsorted : (ys ++ rest).Pairwise fun a b => (st.msg b).cls ≤ (st.msg a).cls)
    (hok : ∀ a ∈ rest, MsgOk st.q.bandp.length (st.msg a))
    (hnext : ∀ front a tail, rest = front ++ a :: tail → st.links.next a = tail.head?)
    (hload : e → ∀ pri, load st.msg pri (ys ++ rest) < ulong) (hfuel : (ys ++ rest).length < fuel)
    (hn : rest.length < n) : ∃ st', flushLoop avail fuel drop n rest.head? st = some st' ∧
      Inv e st' (ys ++ rest.filter fun a => !drop (st.msg a)) ∧
      Reput st st' (rest.filter fun a => drop (st.msg a)) := by
  induction rest generalizing st ys n with
  | nil =>
    obtain ⟨n, rfl⟩ : ∃ k, n = k + 1 := ⟨n - 1, by simp at hn; omega⟩
    exact ⟨st, rfl, by simpa using h, Reput.refl⟩
  | cons a rest ih =>
    obtain ⟨n, rfl⟩ : ∃ k, n = k + 1 := ⟨n - 1, by simp at hn; omega⟩
    have hnext' := hnext [] a rest rfl
    have hsub : (ys ++ rest).Sublist (ys ++ a :: rest) := by simp
    simp only [head?_cons, flushLoop, hnext']
    by_cases hdrop : drop (st.msg a) = true
    · have hfree : Inv e (freemsg st a) ys := ⟨h.shape, h.counted, h.exact⟩
      obtain ⟨st', heq, hinv, hreput⟩ := ih hfree (hnodup.sublist hsub) (hsorted.sublist hsub)
        (fun b hb => hok b (.tail _ hb))
        (fun front b tail hrest => hnext (a :: front) b tail (by rw [hrest]; rfl))
        (fun he pri => Nat.lt_of_le_of_lt (load_sublist hsub) (hload he pri))
        (Nat.lt_of_le_of_lt hsub.length_le hfuel) (by simpa using hn)
      rw [if_pos hdrop]
      refine ⟨st', heq, ?_, ?_⟩
      · rw [filter_cons_of_neg (by simp [hdrop])]
        exact hinv
      · rw [filter_cons_of_pos (p := fun a => drop (st.msg a)) hdrop]
        exact reput_freemsg.trans hreput
    · have haok := hok a (.head _)
      have hnorm := Msg.norm_of_ok haok
      have hay : a ∉ ys := fun hay =>
        (nodup_append.mp hnodup).2.2 a hay a (.head _) rfl
      have hafter : ∀ b ∈ ys, (st.msg a).cls ≤ (st.msg b).cls := fun b hb =>
        (pairwise_append.mp hsorted).2.2 b hb a (.head _)
      have hband : (st.msg a).bBand < 256 := Nat.lt_succ_of_le (Nat.le_trans haok.band h.shape.nband)
      have hfits : e → st.Fits ys (st.msg a) := fun he => by
        have hlt := hload he (st.msg a).bBand
        rw [load_insert, if_pos rfl, load_append] at hlt
        unfold State.Fits
        rw [hnorm]
        omega
      have hlen : ys.length < fuel := by
        rw [length_append] at hfuel
        omega
      obtain ⟨st₁, ok, zs, heq, hput, -, hplace⟩ := putq_ok avail fuel h hay hband hfits hlen
      have hyes := (hput.nband (by rw [hnorm]; exact haok.band)).1
      obtain ⟨front, back, hys, rfl, hfront, hback, hoff⟩ := hplace hyes
      -- nothing that was put on again is below the message
      have hnil : back = [] := by
        rw [eq_nil_iff_forall_not_mem]
        intro b hb
        have hlt := hback b hb
        have hle := hafter b (hys ▸ mem_append_right _ hb)
        rw [hnorm] at hlt
        omega
      rw [hnil, append_nil] at hys
      rw [hnil, ← hys] at hput
      have hreput := hput.reput haok
      have hmsg : st₁.msg = st.msg := by
        obtain ⟨_, _, _, hst₁⟩ := hreput.frame
        rw [hst₁]
      have happ : (ys ++ [a]) ++ rest = ys ++ a :: rest := by simp
      obtain ⟨st', heq', hinv, hreput'⟩ := ih hput.inv
        (by rw [happ]; exact hnodup) (by rw [happ, hmsg]; exact hsorted)
        (fun b hb => by
          rw [hmsg, hreput.nband]
          exact hok b (.tail _ hb))
        (fun front b tail hrest => by
          have hout : b ∉ a :: ys := fun hin => by
            have hbrest : b ∈ rest := hrest ▸ by simp
            rcases mem_cons.mp hin with rfl | hin
            · have := (nodup_append.mp hnodup).2.1
              exact (nodup_cons.mp this).1 hbrest
            · exact (nodup_append.mp hnodup).2.2 b hin b (.tail _ hbrest) rfl
          rw [(hoff b hout).1]
          exact hnext (a :: front) b tail (by rw [hrest]; rfl))
        (fun he => by rw [happ, hmsg]; exact hload he) (by rw [happ]; exact hfuel)
        (by simpa using hn)
      rw [hmsg] at hinv hreput'
      rw [if_neg hdrop, heq, bind_some]
      refine ⟨st', heq', ?_, ?_⟩
      · rw [filter_cons_of_pos (by simp [hdrop])]
        simpa using hinv
      · rw [filter_cons_of_neg (p := fun a => drop (st.msg a)) hdrop]
        exact hreput.trans hreput'

/-! ### The empty queue -/

theorem flowOf_reset : st.reset.q.flowOf pri = (st.q.flowOf pri).map Flow.reset := by
  by_cases hpri : pri = 0
  · rw [hpri]
    rfl
  rw [Queue.flowOf_band hpri, Queue.flowOf_band hpri, Queue.band, Queue.band, State.reset]
  rw [getElem?_map]
  cases st.q.bandp[pri - 1]? <;> rfl

theorem inv_reset (h : Inv e st xs) : Inv e st.reset [] := by
  have hflow : ∀ pri f, st.reset.q.flowOf pri = some f →
      ∃ f', st.q.flowOf pri = some f' ∧ f = f'.reset := fun pri f hf => by
    rw [flowOf_reset, map_eq_some_iff] at hf
    obtain ⟨f', hf', heq⟩ := hf
    exact ⟨f', hf', heq.symm⟩
  refine ⟨⟨⟨nodup_nil, rfl, rfl, by simp⟩, List.Pairwise.nil, by simp, ?_, ?_⟩,
    ⟨?_, ?_, ?_⟩, fun _ => ⟨?_, fun _ => (by decide : 0 < ulong)⟩⟩
  · intro pri qbp _ hqbp
    rw [State.reset] at hqbp
    rw [getElem?_map, map_eq_some_iff] at hqbp
    obtain ⟨old, -, rfl⟩ := hqbp
    exact ⟨rfl, rfl⟩
  · rw [State.reset]
    rw [length_map]
    exact h.shape.nband
  · intro pri f hf
    obtain ⟨f', -, rfl⟩ := hflow pri f hf
    rfl
  · intro pri f hf
    obtain ⟨f', hf', rfl⟩ := hflow pri f hf
    exact h.counted.hiwat pri f' hf'
  · rw [Queue.fulls, State.reset]
    rw [countP_map, eq_comm, countP_eq_zero]
    simp [Flow.reset]
  · intro pri f hf
    obtain ⟨f', hf', rfl⟩ := hflow pri f hf
    have := h.counted.hiwat pri f' hf'
    simp only [Flow.reset, Bool.false_eq_true, false_iff]
    omega

theorem flushAll_ok (avail : Nat → Bool) (drop : Msg → Bool) (h : Inv e st xs) (hfuel : xs.length < fuel) :
    ∃ st', flushLoop avail fuel drop fuel st.links.first st.reset = some st' ∧
      Inv e st' (xs.filter fun a => !drop (st.msg a)) ∧
      Reput st.reset st' (xs.filter fun a => drop (st.msg a)) := by
  rw [h.shape.spells.first]
  have hloop := flushLoop_ok avail drop (inv_reset h) h.shape.spells.nodup h.shape.sorted (fun a ha => by
      have hlen : st.reset.q.bandp.length = st.q.bandp.length := length_map ..
      rw [hlen]
      exact h.shape.ok a ha)
    (fun front a tail hxs => (h.shape.spells.links front a tail hxs).1)
    (fun he pri => (h.exact he).bound pri) hfuel hfuel
  exact hloop

/-! ### The ends of the flushes -/

def flushed (q : Queue) (i : Nat) : Bool := (q.flowOf i).any Flow.relieved

def Flow.unwant (f : Flow) : Flow := if f.relieved = true then f.clearWantw else f

theorem Flow.unwant_same {f : Flow} :
    f.unwant.count = f.count ∧ f.unwant.hiwat = f.hiwat ∧ f.unwant.full = f.full := by
  unfold unwant
  split <;> exact ⟨rfl, rfl, rfl⟩

theorem flushWriters_behind (avail : Nat → Bool) (st : State) :
    Behind avail { st with q := st.q.modifyFlows Flow.unwant } (flushWriters avail st)
      ((range ((st.q.bandp.length + 1) % 256)).filter (flushed st.q)) := by
  have hlen : (st.q.modifyFlows Flow.unwant).bandp.length = st.q.bandp.length :=
    Queue.length_of_ends Queue.ends_modifyFlows
  unfold flushWriters
  cases hback : st.back with
  | none => exact Behind.of_none rfl
  | some nq =>
    change Behind avail { st with q := st.q.modifyFlows Flow.unwant, back := some nq }
      (if (range ((st.q.modifyFlows Flow.unwant).bandp.length + 1)).any (flushed st.q) = true
        then setqbacks avail (flushed st.q) ((st.q.bandp.length + 1) % 256)
          { st with q := st.q.modifyFlows Flow.unwant, back := some nq.qenable }
        else { st with q := st.q.modifyFlows Flow.unwant, back := some nq }) _
    rw [hlen]
    split
    · have henable : Behind avail { st with q := st.q.modifyFlows Flow.unwant, back := some nq }
          { st with q := st.q.modifyFlows Flow.unwant, back := some nq.qenable } [] :=
        ⟨some nq.qenable, st.calls, [], by rw [append_nil], Nat.le_refl _, rfl, by simp⟩
      exact henable.trans setqbacks_behind
    · rename_i hany
      refine Behind.refl.weaken fun b hb => ?_
      rw [mem_filter, mem_range] at hb
      refine absurd (any_eq_true.mpr ⟨b, mem_range.mpr ?_, hb.2⟩) hany
      omega

theorem flushq_ok (avail : Nat → Bool) (fuel : Nat) (flag : Bool) (h : Inv e st xs) (hfuel : xs.length < fuel) :
    ∃ st' st₁, flushq avail fuel st flag = some st' ∧
      Inv e st' (xs.filter fun a => !(flag || datamsg (st.msg a).dbType)) ∧
      Reput st.reset st₁ (xs.filter fun a => flag || datamsg (st.msg a).dbType) ∧
      Inv e st₁ (xs.filter fun a => !(flag || datamsg (st.msg a).dbType)) ∧
      Behind avail { st₁ with q := st₁.q.modifyFlows Flow.unwant } st'
        ((range ((st₁.q.bandp.length + 1) % 256)).filter (flushed st₁.q)) := by
  obtain ⟨st₁, heq, hinv, hreput⟩ := flushAll_ok avail (fun m => flag || datamsg m.dbType) h hfuel
  have hbehind := flushWriters_behind avail st₁
  refine ⟨flushWriters avail st₁, st₁, ?_, hbehind.inv ?_, hreput, hinv, hbehind⟩
  · rw [flushq, heq, map_some]
  · exact hinv.same rfl rfl Queue.ends_modifyFlows (SameCounts.modifyFlows fun _ => Flow.unwant_same)

def zeroDrop (flag : Bool) (m : Msg) : Bool :=
  m.bBand = 0 && m.dbType < qpctl && (flag || datamsg m.dbType)

theorem flushband_zero_ok (avail : Nat → Bool) (fuel : Nat) (flag : Bool) (h : Inv e st xs) (hfuel : xs.length < fuel) :
    ∃ st' st₁, flushband avail fuel st 0 flag = some st' ∧
      Inv e st' (xs.filter fun a => !zeroDrop flag (st.msg a)) ∧
      Reput st.reset st₁ (xs.filter fun a => zeroDrop flag (st.msg a)) ∧
      Inv e st₁ (xs.filter fun a => !zeroDrop flag (st.msg a)) ∧
      Behind avail
        { st₁ with q := if st₁.q.flow.relieved = true then
            st₁.q.modifyFlow 0 Flow.clearWantw else st₁.q } st'
        (if st₁.q.flow.relieved = true then [0] else []) := by
  obtain ⟨st₁, heq, hinv, hreput⟩ := flushAll_ok avail (zeroDrop flag) h hfuel
  have hflush : flushband avail fuel st 0 flag = some (if st₁.q.flow.relieved = true then
      backEnable avail { st₁ with q := st₁.q.modifyFlow 0 Flow.clearWantw } 0 else st₁) := by
    have heq' : flushLoop avail fuel
        (fun m => m.bBand = 0 && m.dbType < qpctl && (flag || datamsg m.dbType)) fuel
        st.links.first st.reset = some st₁ := heq
    rw [flushband, if_neg (Nat.not_lt_zero _), if_pos rfl, heq', map_some]
  by_cases hrel : st₁.q.flow.relieved = true
  · rw [if_pos hrel] at hflush
    have hcounts : SameCounts st₁.q (st₁.q.modifyFlow 0 Flow.clearWantw) :=
      SameCounts.modifyFlow fun _ => ⟨rfl, rfl, rfl⟩
    have hbehind := backEnable_behind avail { st₁ with q := st₁.q.modifyFlow 0 Flow.clearWantw } 0
    refine ⟨_, st₁, hflush, hbehind.inv ?_, hreput, hinv, ?_⟩
    · exact hinv.same rfl rfl Queue.ends_modifyFlow hcounts
    · rw [if_pos hrel, if_pos hrel]
      exact hbehind
  · rw [if_neg hrel] at hflush
    refine ⟨_, st₁, hflush, hinv, hreput, hinv, ?_⟩
    rw [if_neg hrel, if_neg hrel]
    exact Behind.refl

/-! ### One band -/

def bandDrop (pri : Nat) (flag : Bool) (m : Msg) : Bool :=
  decide (m.bBand = pri) && (flag || datamsg m.dbType)

theorem flushMsg_drop (h : bandDrop pri flag (st.msg mp) = true) :
    flushMsg avail pri flag st mp = freemsg (rmvq avail st mp) mp := by
  rw [bandDrop, Bool.and_eq_true, decide_eq_true_eq] at h
  rw [flushMsg, if_pos h]

theorem flushMsg_keep (h : ¬ bandDrop pri flag (st.msg mp) = true) :
    flushMsg avail pri flag st mp = st := by
  rw [bandDrop, Bool.and_eq_true, decide_eq_true_eq] at h
  rw [flushMsg, if_neg h]

variable {inv : State → List Nat → Prop}

/-- A flush of a band takes off one message after the other; what each of these steps keeps, the
flush keeps. -/
theorem bandLoop_ok (pri : Nat) (flag : Bool) {front seg back : List Nat}
    (hinv : inv st (front ++ seg ++ back)) (hshape : ∀ st xs, inv st xs → st.links.Spells xs)
    (hstep : ∀ st front mp back, inv st (front ++ mp :: back) →
      inv (freemsg (rmvq avail st mp) mp) (front ++ back) ∧ (rmvq avail st mp).msg = st.msg)
    (hn : seg.length < n) :
    ∃ st', bandLoop avail pri flag back.head? n (seg ++ back).head? st = some st' ∧
      inv st' (front ++ seg.filter (fun a => !bandDrop pri flag (st.msg a)) ++ back) ∧
      st'.msg = st.msg := by
  induction seg generalizing st front n with
  | nil =>
    obtain ⟨n, rfl⟩ : ∃ k, n = k + 1 := ⟨n - 1, by simp at hn; omega⟩
    refine ⟨st, ?_, by simpa using hinv, rfl⟩
    exact if_pos rfl
  | cons a seg ih =>
    obtain ⟨n, rfl⟩ : ∃ k, n = k + 1 := ⟨n - 1, by simp at hn; omega⟩
    have hspells := hshape _ _ hinv
    have hnext : st.links.next a = (seg ++ back).head? :=
      (hspells.links front a (seg ++ back) (by simp)).1
    have hlast : ¬ (some a = back.head?) := fun heq => by
      have hin := mem_of_head? heq.symm
      have := hspells.nodup
      rw [nodup_append] at this
      exact this.2.2 a (by simp) a hin rfl
    have hn' : seg.length < n := by simpa using hn
    unfold bandLoop
    rw [cons_append, head?_cons, if_neg hlast]
    dsimp only
    rw [hnext]
    by_cases hdrop : bandDrop pri flag (st.msg a) = true
    · have hinv' : inv st (front ++ a :: (seg ++ back)) := by simpa using hinv
      obtain ⟨hkept, hmsg⟩ := hstep st front a (seg ++ back) hinv'
      rw [← append_assoc] at hkept
      obtain ⟨st', heq, hdone, hmsg'⟩ := ih hkept hn'
      have hsame : (freemsg (rmvq avail st a) a).msg = st.msg := hmsg
      rw [hsame] at hdone hmsg'
      refine ⟨st', by rw [flushMsg_drop hdrop]; exact heq, ?_, hmsg'⟩
      rw [filter_cons_of_neg (by simp [hdrop])]
      exact hdone
    · have hinv' : inv st ((front ++ [a]) ++ seg ++ back) := by simpa using hinv
      obtain ⟨st', heq, hdone, hmsg'⟩ := ih hinv' hn'
      refine ⟨st', by rw [flushMsg_keep hdrop]; exact heq, ?_, hmsg'⟩
      rw [filter_cons_of_pos (by simp [hdrop])]
      simpa using hdone

/-- The messages of a band are together. -/
theorem band_run (h : Shape st.links st.msg st.q.bandp xs) (hpri : 0 < pri) (hle : pri ≤ 255) :
    ∃ front back, xs = front ++ lane st.msg pri xs ++ back ∧
      (∀ a ∈ lane st.msg pri xs, (st.msg a).bBand = pri) ∧
      (∀ a ∈ front, (st.msg a).bBand ≠ pri) ∧ ∀ a ∈ back, (st.msg a).bBand ≠ pri := by
  obtain ⟨upper, back, rfl, hupper, hback⟩ := split_at h.sorted pri
  obtain ⟨front, seg, rfl, hfront, hseg⟩ := split_lt (pairwise_append.mp h.sorted).1 pri
  have hband : ∀ a ∈ front ++ seg ++ back, (st.msg a).bBand = pri → (st.msg a).cls = pri :=
    fun a ha heq => by
      rw [cls_of_not_high, heq]
      intro hhigh
      have := (h.ok a ha).high hhigh
      omega
  have hlane : lane st.msg pri (front ++ seg ++ back) = seg := by
    have hnil : ∀ l : List Nat, (∀ a ∈ l, (st.msg a).cls ≠ pri) → lane st.msg pri l = [] :=
      fun l hl => lane_eq_nil hl
    rw [lane_append, lane_append, hnil front, hnil back, nil_append, append_nil]
    · rw [lane, filter_eq_self]
      intro a ha
      have := hupper a (mem_append_right _ ha)
      have := hseg a ha
      exact decide_eq_true (by omega)
    · intro a ha
      have := hback a ha
      omega
    · intro a ha
      have := hfront a ha
      omega
  rw [hlane]
  refine ⟨front, back, rfl, fun a ha => ?_, fun a ha heq => ?_, fun a ha heq => ?_⟩
  · have hcls : (st.msg a).cls = pri := Nat.le_antisymm (hseg a ha) (hupper a (mem_append_right _ ha))
    rwa [cls_of_not_high] at hcls
    intro hhigh
    rw [cls_of_high hhigh] at hcls
    omega
  · have := hband a (by simp [ha]) heq
    have := hfront a ha
    omega
  · have := hband a (by simp [ha]) heq
    have := hback a ha
    omega

theorem keep_band (h : ∀ a ∈ xs, (st.msg a).bBand ≠ pri) :
    (xs.filter fun a => !bandDrop pri flag (st.msg a)) = xs := by
  rw [filter_eq_self]
  intro a ha
  simp [bandDrop, h a ha]

/-- `flushband` of a band other than 0 takes off the messages of its selection. -/
theorem flushband_ok (fuel : Nat) (flag : Bool) (h : Inv e st xs) (hinv : inv st xs) (hpri : 0 < pri)
    (hle : pri ≤ 255) (hfuel : xs.length < fuel) (hshape : ∀ st xs, inv st xs → st.links.Spells xs)
    (hstep : ∀ st front mp back, inv st (front ++ mp :: back) →
      inv (freemsg (rmvq avail st mp) mp) (front ++ back) ∧ (rmvq avail st mp).msg = st.msg) :
    ∃ st', flushband avail fuel st pri flag = some st' ∧
      inv st' (xs.filter fun a => !bandDrop pri flag (st.msg a)) ∧ st'.msg = st.msg := by
  unfold flushband
  by_cases hnband : st.q.bandp.length < pri
  · rw [if_pos hnband]
    refine ⟨st, rfl, ?_, rfl⟩
    rw [keep_band]
    · exact hinv
    · intro a ha
      have := (h.shape.ok a ha).band
      omega
  rw [if_neg hnband, if_neg (by omega)]
  obtain ⟨qbp, hqbp⟩ : ∃ qbp, st.q.band pri = some qbp := ⟨_, getElem?_eq_getElem (by omega)⟩
  obtain ⟨hfirst, hlast⟩ := h.shape.ends pri qbp hpri hqbp
  obtain ⟨front, back, hxs, hlane, hfront, hback⟩ := band_run h.shape hpri hle
  have hlen : (lane st.msg pri xs).length ≤ xs.length := length_filter_le ..
  generalize lane st.msg pri xs = seg at *
  subst hxs
  have hnext := h.shape.spells.links
  rw [hqbp, bind_some, filter_append, filter_append, keep_band hfront, keep_band hback]
  have hafter : ∀ (st' : State) (b : Nat), st'.msg = st.msg → back.head? = some b →
      flushMsg avail pri flag st' b = st' := fun st' b hmsg hb => by
    apply flushMsg_keep
    rw [hmsg]
    simp [bandDrop, hback b (mem_of_head? hb)]
  rcases eq_nil_or_concat seg with rfl | ⟨seg, l, rfl⟩
  · rw [head?_nil] at hfirst
    rw [hfirst]
    exact ⟨st, rfl, by simpa using hinv, rfl⟩
  rw [concat_eq_append] at *
  rw [getLast?_concat] at hlast
  cases seg with
  | nil =>
    rw [nil_append] at *
    rw [head?_cons] at hfirst
    obtain ⟨st', heq, hdone, hmsg⟩ := bandLoop_ok pri flag hinv hshape hstep
      (Nat.lt_of_le_of_lt hlen hfuel)
    rw [singleton_append, head?_cons] at heq
    refine ⟨st', ?_, hdone, hmsg⟩
    rw [hfirst]
    dsimp only
    rw [if_pos hlast, (hnext front l back (by simp)).1, heq, map_some]
    cases hhead : back.head? with
    | none => rfl
    | some b => exact congrArg some (hafter st' b hmsg hhead)
  | cons a seg =>
    have hne : ¬ qbp.qbLast = some a := by
      rw [hlast, Option.some.injEq]
      intro heq
      have := h.shape.spells.nodup
      subst heq
      simp [nodup_append] at this
    have hinv' : inv st (front ++ (a :: seg) ++ (l :: back)) := by simpa using hinv
    have hlen' : (a :: seg).length < fuel := by
      rw [length_append] at hlen
      simp only [length_append, length_singleton] at hlen hfuel
      omega
    obtain ⟨st', heq, hdone, hmsg⟩ := bandLoop_ok pri flag hinv' hshape hstep hlen'
    rw [cons_append, head?_cons, head?_cons] at heq
    rw [cons_append, head?_cons] at hfirst
    rw [hfirst]
    dsimp only
    rw [if_neg hne, hlast, heq, map_some]
    rw [filter_append]
    by_cases hdrop : bandDrop pri flag (st.msg l) = true
    · obtain ⟨hgone, hmsg'⟩ := hstep st' _ l back hdone
      have hsame : (freemsg (rmvq avail st' l) l).msg = st'.msg := hmsg'
      refine ⟨_, congrArg some (flushMsg_drop (by rw [hmsg]; exact hdrop)), ?_, hsame.trans hmsg⟩
      rw [filter_cons_of_neg (a := l) (by simp [hdrop]), filter_nil, append_nil]
      exact hgone
    · refine ⟨st', congrArg some (flushMsg_keep (by rw [hmsg]; exact hdrop)), ?_, hmsg⟩
      rw [filter_cons_of_pos (a := l) (by simp [hdrop]), filter_nil]
      simpa using hdone

end

end Svr42.Strm
