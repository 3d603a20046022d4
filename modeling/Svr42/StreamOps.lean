import Svr42.StreamSpec

/-! The queue as a whole, and what the operations do to its messages. -/

namespace Svr42.Strm
open Function List Option

/-- The queue holds the messages `xs` in order, with their bytes counted; and exactly so, if `e`. -/
structure Inv (e : Prop) (st : State) (xs : List Nat) : Prop where
  shape : Shape st.links st.msg st.q.bandp xs
  counted : Counted st.q st.msg xs
  exact : e → Exact st.q st.msg xs

def Msg.norm (m : Msg) : Msg := if m.queclass = qpctl then { m with bBand := 0 } else m

namespace Msg

variable {m : Msg}

theorem norm_of_high (h : m.queclass = qpctl) : m.norm = { m with bBand := 0 } := if_pos h

theorem norm_of_not (h : ¬ m.queclass = qpctl) : m.norm = m := if_neg h

theorem high_iff : m.queclass = qpctl ↔ qpctl ≤ m.dbType := by
  unfold queclass
  split
  · rename_i h
    exact iff_of_true rfl h
  · rename_i h
    exact iff_of_false (by decide) h

@[simp]
theorem sizes_norm : m.norm.sizes = m.sizes := by
  unfold norm
  split <;> rfl

@[simp]
theorem size_norm : m.norm.size = m.size := by
  rw [size, sizes_norm, size]

@[simp]
theorem noget_norm : m.norm.noget = m.noget := by
  unfold norm
  split <;> rfl

theorem norm_of_ok {n : Nat} (h : MsgOk n m) : m.norm = m := by
  unfold norm
  split
  · rename_i hhigh
    have := h.high (high_iff.mp hhigh)
    rw [← this]
  · rfl

end Msg

section

variable {e : Prop} {avail : Nat → Bool} {st st' : State} {xs ys pre post : List Nat}
  {bp mp fuel : Nat} {m : Msg}

theorem Inv.same (h : Inv e st xs) (hlinks : st'.links = st.links) (hmsg : st'.msg = st.msg)
    (hends : st'.q.bandp.map Qband.ends = st.q.bandp.map Qband.ends) (hcounts : SameCounts st.q st'.q) :
    Inv e st' xs := by
  refine ⟨?_, ?_, fun he => ?_⟩
  · rw [hlinks, hmsg]
    exact h.shape.congr hends
  · rw [hmsg]
    exact h.counted.same hcounts
  · rw [hmsg]
    exact (h.exact he).same hcounts

theorem Behind.inv {bands : List Nat} (hbehind : Behind avail st st' bands) (h : Inv e st xs) :
    Inv e st' xs := by
  obtain ⟨back, calls, l, rfl, -⟩ := hbehind
  exact ⟨h.shape, h.counted, h.exact⟩

theorem Inv.setMsg (h : Inv e st xs) (hbp : bp ∉ xs) : Inv e (st.setMsg bp m) xs := by
  have hsame : ∀ a ∈ xs, update st.msg bp m a = st.msg a := fun a ha =>
    update_of_ne (ne_of_mem_of_not_mem ha hbp) _ _
  exact ⟨h.shape.setMsg hbp, h.counted.congr hsame, fun he => (h.exact he).congr hsame⟩

theorem Inv.mem_iff (h : Inv e st xs) : st.Holds bp ↔ bp ∈ xs := by
  constructor
  · rintro ⟨ys, hys, hbp⟩
    rwa [h.shape.spells.unique hys]
  · exact fun hbp => ⟨xs, h.shape.spells, hbp⟩

/-! ### Putting a message on -/

/-- The message has got its band. -/
theorem prepare_ok {ok : Bool} (h : Inv e st xs) (hbp : bp ∉ xs) (hband : (st.msg bp).bBand < 256)
    (heq : prepare avail st bp = (st', ok)) : ∃ n calls, st' = { st with
        msg := update st.msg bp (st.msg bp).norm, q := st.q.grown n, calls := calls } ∧
      st.calls ≤ calls ∧ Inv e st' xs ∧
      (ok = true → MsgOk st'.q.bandp.length (st'.msg bp)) ∧
      ((st.msg bp).norm.bBand ≤ st.q.bandp.length → ok = true ∧ n = 0) := by
  simp only [prepare] at heq
  split_ifs at heq with hhigh
  · have hinv := h.setMsg (m := (st.msg bp).norm) hbp
    rw [State.setMsg] at hinv
    rw [Msg.norm_of_high hhigh] at hinv ⊢
    cases heq
    refine ⟨0, st.calls, ?_, Nat.le_refl _, hinv, fun _ => ?_, fun _ => ⟨rfl, rfl⟩⟩
    · rw [Queue.grown_zero]
    · dsimp only
      rw [update_self]
      exact ⟨fun _ => rfl, Nat.zero_le _⟩
  · rw [Msg.norm_of_not hhigh, update_eq_self]
    cases hgrow : st.q.growBands avail ((st.msg bp).bBand - st.q.bandp.length) st.calls with
    | mk q r =>
      obtain ⟨calls, good⟩ := r
      rw [hgrow] at heq
      cases heq
      obtain ⟨n, rfl, hn, hgood, hcalls, -⟩ := Queue.growBands_ok hgrow
      have hlen : (st.q.grown n).bandp.length = st.q.bandp.length + n := by
        rw [Queue.grown, length_append, length_replicate]
      refine ⟨n, calls, rfl, hcalls, ⟨?_, ?_, fun he => ?_⟩, fun hok => ?_, fun hle => ?_⟩
      · have := h.shape.nband
        exact h.shape.grow rfl rfl (by omega)
      · exact h.counted.grown h.shape
      · exact (h.exact he).grown h.counted
      · refine ⟨fun hdb => absurd (Msg.high_iff.mpr hdb) hhigh, ?_⟩
        dsimp only
        rw [hlen, hgood hok]
        omega
      · have hzero : (st.msg bp).bBand - st.q.bandp.length = 0 := by omega
        rw [hzero, Queue.growBands, Prod.mk.injEq, Prod.mk.injEq] at hgrow
        exact ⟨hgrow.2.2.symm, by omega⟩

theorem account_eq (st : State) (bp : Nat) : ∃ q, account st bp = { st with q := q } ∧
    (q = st.q.charge (st.msg bp) ∨ q = (st.q.charge (st.msg bp)).qenable) := by
  simp only [account]
  split
  · exact ⟨_, rfl, .inr rfl⟩
  · exact ⟨_, rfl, .inl rfl⟩

/-- What a put does, whether it succeeds or not. -/
structure Put (e : Prop) (st st' : State) (bp : Nat) (ok : Bool) (ys : List Nat) : Prop where
  inv : Inv e st' ys
  frame : ∃ links q calls, st' = { st with
    links := links, msg := Function.update st.msg bp (st.msg bp).norm, q := q, calls := calls }
  calls : st.calls ≤ st'.calls
  nband : (st.msg bp).norm.bBand ≤ st.q.bandp.length →
    ok = true ∧ st'.q.bandp.length = st.q.bandp.length
  flow : ∀ pri f, st.q.flowOf pri = some f → st'.q.flowOf pri = some
    (if ok = true ∧ pri = (st.msg bp).norm.bBand then (f.add (st.msg bp).sizes).setFull else f)

variable {links : DList Nat}

theorem banded_msg {q : Queue} {calls : Nat} (hst' : st' = { st with
      msg := update st.msg bp (st.msg bp).norm, q := q, calls := calls }) :
    st'.msg bp = (st.msg bp).norm ∧ ∀ a, a ≠ bp → st'.msg a = st.msg a := by
  rw [hst']
  exact ⟨update_self .., fun a ha => update_of_ne ha _ _⟩

/-- A message that has its band, linked in and charged, and perhaps the queue enabled. -/
theorem charged_put {q q' : Queue} {n calls : Nat} (hst' : st' = { st with
      msg := update st.msg bp (st.msg bp).norm, q := st.q.grown n, calls := calls })
    (hcalls : st.calls ≤ calls) (h : Inv e st' (pre ++ post)) (hq : st'.q.SameFlows q)
    (hshape : Shape links st'.msg q.bandp (pre ++ bp :: post))
    (hn : (st.msg bp).norm.bBand ≤ st.q.bandp.length → n = 0)
    (hfits : e → load st'.msg (st'.msg bp).bBand (pre ++ post) + (st'.msg bp).size < ulong)
    (hq' : q' = q.charge (st'.msg bp) ∨ q' = (q.charge (st'.msg bp)).qenable) :
    Put e st { st' with links := links, q := q' } bp true (pre ++ bp :: post) := by
  have hnband := hshape.nband
  have hmsg : st'.msg bp = (st.msg bp).norm := (banded_msg hst').1
  have hcounted : Counted (q.charge (st'.msg bp)) st'.msg (pre ++ bp :: post) :=
    (h.counted.same hq.counts).charge hnband
  have hexact : e → Exact (q.charge (st'.msg bp)) st'.msg (pre ++ bp :: post) := fun he =>
    ((h.exact he).same hq.counts).charge (h.counted.same hq.counts) (hfits he)
  have hbandp : q'.bandp = (q.charge (st'.msg bp)).bandp := by
    rcases hq' with rfl | rfl
    · rfl
    · exact Queue.bandp_qenable
  have hflow : ∀ c, q'.flowOf c = (q.charge (st'.msg bp)).flowOf c := fun c => by
    rcases hq' with rfl | rfl
    · rfl
    · exact Queue.flowOf_qenable
  have hsame : SameCounts (q.charge (st'.msg bp)) q' := by
    rcases hq' with rfl | rfl
    · exact ⟨fun pri f hf => ⟨f, hf, rfl, rfl, rfl⟩, rfl, rfl⟩
    · exact SameCounts.qenable
  refine ⟨⟨?_, hcounted.same hsame, fun he => (hexact he).same hsame⟩, ?_, ?_, fun hle => ?_,
    fun pri f hf => ?_⟩
  · rw [hbandp]
    exact hshape.congr Queue.ends_charge
  · rw [hst']
    exact ⟨links, q', calls, rfl⟩
  · rw [hst']
    exact hcalls
  · refine ⟨rfl, ?_⟩
    rw [hbandp, Queue.length_of_ends Queue.ends_charge, hq.length, hst', hn hle, Queue.grown_zero]
  · have hle := Queue.le_of_flowOf hf
    have hst'q : st'.q.flowOf pri = some f := by
      rw [hst']
      rw [Queue.flowOf_grown_le hle, hf]
    rw [hflow, Queue.flowOf_charge, hq.flowOf, hst'q, hmsg, Msg.sizes_norm]
    by_cases hpri : pri = (st.msg bp).norm.bBand
    · rw [if_pos hpri, if_pos ⟨rfl, hpri⟩, map_some]
    · rw [if_neg hpri, if_neg fun hand => hpri hand.2]

theorem account_put {q : Queue} {n calls : Nat} (hst' : st' = { st with
      msg := update st.msg bp (st.msg bp).norm, q := st.q.grown n, calls := calls })
    (hcalls : st.calls ≤ calls) (h : Inv e st' (pre ++ post)) (hq : st'.q.SameFlows q)
    (hshape : Shape links st'.msg q.bandp (pre ++ bp :: post))
    (hn : (st.msg bp).norm.bBand ≤ st.q.bandp.length → n = 0)
    (hfits : e → load st'.msg (st'.msg bp).bBand (pre ++ post) + (st'.msg bp).size < ulong) :
    Put e st (account { st' with links := links, q := q } bp) bp true (pre ++ bp :: post) := by
  obtain ⟨q', heq, hq'⟩ := account_eq { st' with links := links, q := q } bp
  have hput : Put e st { st' with links := links, q := q' } bp true (pre ++ bp :: post) :=
    charged_put hst' hcalls h hq hshape hn hfits hq'
  rwa [heq]

theorem prepare_failed (h : Inv e st xs) (hbp : bp ∉ xs) (hband : (st.msg bp).bBand < 256)
    (heq : prepare avail st bp = (st', false)) : Put e st st' bp false xs := by
  obtain ⟨n, calls, hst', hcalls, hinv, -, hn⟩ := prepare_ok h hbp hband heq
  refine ⟨hinv, ?_, ?_, fun hle => ?_, fun pri f hf => ?_⟩
  · rw [hst']
    exact ⟨_, _, _, rfl⟩
  · rw [hst']
    exact hcalls
  · exact absurd (hn hle).1 (by simp)
  · rw [if_neg (by simp), hst']
    rw [Queue.flowOf_grown_le (Queue.le_of_flowOf hf), hf]

def State.Fits (st : State) (xs : List Nat) (m : Msg) : Prop :=
  load st.msg m.norm.bBand xs + m.size < ulong

theorem fits_update (hbp : bp ∉ xs) (h : st.Fits xs (st.msg bp)) :
    load (update st.msg bp (st.msg bp).norm) (update st.msg bp (st.msg bp).norm bp).bBand xs +
      (update st.msg bp (st.msg bp).norm bp).size < ulong := by
  have hsame : ∀ a ∈ xs, update st.msg bp (st.msg bp).norm a = st.msg a := fun a ha =>
    update_of_ne (ne_of_mem_of_not_mem ha hbp) _ _
  rw [update_self, Msg.size_norm, load_congr hsame]
  exact h

theorem split_lt (hsorted : xs.Pairwise fun a b => (st.msg b).cls ≤ (st.msg a).cls) (c : Nat) :
    ∃ pre post, xs = pre ++ post ∧ (∀ a ∈ pre, c < (st.msg a).cls) ∧ ∀ a ∈ post, (st.msg a).cls ≤ c := by
  obtain ⟨pre, post, heq, hpre, hpost⟩ := split_at hsorted (c + 1)
  exact ⟨pre, post, heq, hpre, fun a ha => Nat.le_of_lt_succ (hpost a ha)⟩

section

variable (avail fuel) (h : Inv e st xs) (hbp : bp ∉ xs)
  (hband : (st.msg bp).bBand < 256) (hfits : e → st.Fits xs (st.msg bp)) (hfuel : xs.length < fuel)
include avail fuel h hbp hband hfits hfuel

/-- `putq` places the message after all of its class. -/
theorem putq_ok : ∃ st' ok ys, putq avail fuel st bp = some (st', ok) ∧ Put e st st' bp ok ys ∧
      (ok = false → ys = xs) ∧
      (ok = true → ∃ pre post, xs = pre ++ post ∧ ys = pre ++ bp :: post ∧
        (∀ a ∈ pre, (st.msg bp).norm.cls ≤ (st.msg a).cls) ∧
        (∀ a ∈ post, (st.msg a).cls < (st.msg bp).norm.cls) ∧
        DList.AgreeOff st.links st'.links (bp :: xs)) := by
  unfold putq
  cases heq : prepare avail st bp with
  | mk st₁ ok =>
    cases ok with
    | false =>
      exact ⟨st₁, false, xs, rfl, prepare_failed h hbp hband heq, fun _ => rfl, by simp⟩
    | true =>
      obtain ⟨n, calls, hst₁, hcalls, hinv, hok, hn⟩ := prepare_ok h hbp hband heq
      obtain ⟨pre, post, rfl, hpre, hpost⟩ := split_at hinv.shape.sorted (st₁.msg bp).cls
      obtain ⟨links, hlinks, hshape, hoff⟩ := putq_shape hinv.shape hbp (hok rfl) hpre hpost hfuel
      obtain ⟨hnorm, hmsg⟩ := banded_msg hst₁
      have hput := account_put hst₁ hcalls hinv putqEnds_sameFlows hshape
        (fun hle => (hn hle).2) fun he => by
          rw [hst₁]
          exact fits_update hbp (hfits he)
      refine ⟨_, true, _, ?_, hput, by simp, fun _ => ⟨pre, post, rfl, rfl, ?_, ?_, ?_⟩⟩
      · dsimp only
        rw [hlinks, map_some]
      · intro a ha
        rw [← hnorm, ← hmsg a (ne_of_mem_of_not_mem (mem_append_left _ ha) hbp)]
        exact hpre a ha
      · intro a ha
        rw [← hnorm, ← hmsg a (ne_of_mem_of_not_mem (mem_append_right _ ha) hbp)]
        exact hpost a ha
      · obtain ⟨q, haccount, -⟩ := account_eq { st₁ with links := links, q := putqEnds st₁ bp } bp
        rw [haccount]
        rw [hst₁] at hoff
        exact hoff

/-- `putbq` places the message before all of its class. -/
theorem putbq_ok : ∃ st' ok ys, putbq avail fuel st bp = some (st', ok) ∧ Put e st st' bp ok ys ∧
      (ok = false → ys = xs) ∧
      (ok = true → ∃ pre post, xs = pre ++ post ∧ ys = pre ++ bp :: post ∧
        (∀ a ∈ pre, (st.msg bp).norm.cls < (st.msg a).cls) ∧
        (∀ a ∈ post, (st.msg a).cls ≤ (st.msg bp).norm.cls)) := by
  unfold putbq
  cases heq : prepare avail st bp with
  | mk st₁ ok =>
    cases ok with
    | false =>
      exact ⟨st₁, false, xs, rfl, prepare_failed h hbp hband heq, fun _ => rfl, by simp⟩
    | true =>
      obtain ⟨n, calls, hst₁, hcalls, hinv, hok, hn⟩ := prepare_ok h hbp hband heq
      obtain ⟨pre, post, rfl, hpre, hpost⟩ := split_lt hinv.shape.sorted (st₁.msg bp).cls
      obtain ⟨links, hlinks, hshape⟩ := putbq_shape hinv.shape hbp (hok rfl) hpre hpost hfuel
      obtain ⟨hnorm, hmsg⟩ := banded_msg hst₁
      have hput := account_put hst₁ hcalls hinv putbqEnds_sameFlows hshape
        (fun hle => (hn hle).2) fun he => by
          rw [hst₁]
          exact fits_update hbp (hfits he)
      refine ⟨_, true, _, ?_, hput, by simp, fun _ => ⟨pre, post, rfl, rfl, ?_, ?_⟩⟩
      · dsimp only
        rw [hlinks, map_some]
      · intro a ha
        rw [← hnorm, ← hmsg a (ne_of_mem_of_not_mem (mem_append_left _ ha) hbp)]
        exact hpre a ha
      · intro a ha
        rw [← hnorm, ← hmsg a (ne_of_mem_of_not_mem (mem_append_right _ ha) hbp)]
        exact hpost a ha

end

end

end Svr42.Strm
