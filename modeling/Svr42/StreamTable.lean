import Svr42.StreamRuns

/-! A queue as a table of first-in first-out lists, one for each class: high priority, then the bands
from 255 down to 0. -/

namespace Svr42.Strm
open Function List

/-- The messages of each class, with their contents. Class 256 is high priority. -/
abbrev Table := Nat → List (Nat × Msg)

namespace Table

def push (t : Table) (a : Nat) (m : Msg) : Table := update t m.cls (t m.cls ++ [(a, m)])

def unshift (t : Table) (a : Nat) (m : Msg) : Table := update t m.cls ((a, m) :: t m.cls)

/-- The first message of the highest class, of those not marked MSGNOGET. -/
structure Gets (t : Table) (mp : Nat) (t' : Table) : Prop where
  split : ∃ c front m back, t c = front ++ (mp, m) :: back ∧ m.noget = false ∧
    (∀ i ∈ front, i.2.noget = true) ∧ (∀ c', c < c' → ∀ i ∈ t c', i.2.noget = true) ∧
    t' = update t c (front ++ back)

inductive Step : Table → Event → Table → Prop
  | putq {t : Table} {bp : Nat} {m : Msg} : Step t (.putq bp m true) (t.push bp m.norm)
  | putqFails {t : Table} {bp : Nat} {m : Msg} : Step t (.putq bp m false) t
  | putbq {t : Table} {bp : Nat} {m : Msg} : Step t (.putbq bp m true) (t.unshift bp m.norm)
  | putbqFails {t : Table} {bp : Nat} {m : Msg} : Step t (.putbq bp m false) t
  | getq {t t' : Table} {mp : Nat} : Gets t mp t' → Step t (.getq (some mp)) t'
  | getqEmpty {t : Table} : (∀ c, ∀ i ∈ t c, i.2.noget = true) → Step t (.getq none) t
  | rmvq {t : Table} {mp c : Nat} {m : Msg} {front back : List (Nat × Msg)} :
      t c = front ++ (mp, m) :: back →
      Step t (.rmvq mp) (update t c (front ++ back))
  | flushq {t : Table} {flag : Bool} :
      Step t (.flushq flag) fun c => (t c).filter fun i => !(flag || datamsg i.2.dbType)
  | flushband {t : Table} {pri : Nat} {flag : Bool} :
      Step t (.flushband pri flag)
        (update t pri ((t pri).filter fun i => !(flag || datamsg i.2.dbType)))
  | canput {t : Table} {ok : Bool} : Step t (.canput ok) t
  | bcanput {t : Table} {pri : Nat} {ok : Bool} : Step t (.bcanput pri ok) t
  | serve {t : Table} {nq : Queue} : Step t (.serve nq) t

end Table

def table (msg : Nat → Msg) (xs : List Nat) : Table := fun c =>
  (lane msg c xs).map fun a => (a, msg a)

namespace Event

def isPut (a : Nat) : Event → Bool
  | .putq bp _ ok => ok && decide (bp = a)
  | .putbq bp _ ok => ok && decide (bp = a)
  | _ => false

def isTaken (a : Nat) : Event → Bool
  | .getq r => decide (r = some a)
  | .rmvq mp => decide (mp = a)
  | _ => false

end Event

section

variable {msg msg' : Nat → Msg} {xs pre post : List Nat} {bp mp c : Nat} {p : Msg → Bool}

theorem table_congr (h : ∀ a ∈ xs, msg' a = msg a) : table msg' xs = table msg xs := by
  funext c
  unfold table
  rw [lane_congr h]
  apply map_congr_left
  intro a ha
  rw [h a (mem_of_mem_filter ha)]

theorem table_push (hpost : ∀ a ∈ post, (msg a).cls < (msg bp).cls) :
    table msg (pre ++ bp :: post) = (table msg (pre ++ post)).push bp (msg bp) := by
  funext c
  unfold table Table.push
  by_cases hc : c = (msg bp).cls
  · have hnil : lane msg (msg bp).cls post = [] := lane_eq_nil fun a ha => Nat.ne_of_lt (hpost a ha)
    dsimp only
    rw [hc, update_self, lane_insert_eq rfl, lane_append, hnil, append_nil, map_append]
    rfl
  · rw [update_of_ne hc, lane_insert_ne (Ne.symm hc)]

theorem table_unshift (hpre : ∀ a ∈ pre, (msg bp).cls < (msg a).cls) :
    table msg (pre ++ bp :: post) = (table msg (pre ++ post)).unshift bp (msg bp) := by
  funext c
  unfold table Table.unshift
  by_cases hc : c = (msg bp).cls
  · have hnil : lane msg (msg bp).cls pre = [] := lane_eq_nil fun a ha => Nat.ne_of_gt (hpre a ha)
    dsimp only
    rw [hc, update_self, lane_insert_eq rfl, lane_append, hnil, nil_append, nil_append]
    rfl
  · rw [update_of_ne hc, lane_insert_ne (Ne.symm hc)]

theorem table_split : table msg (pre ++ mp :: post) (msg mp).cls =
      table msg pre (msg mp).cls ++ (mp, msg mp) :: table msg post (msg mp).cls := by
  unfold table
  rw [lane_insert_eq rfl, map_append, map_cons]

theorem table_remove : table msg (pre ++ post) = update (table msg (pre ++ mp :: post)) (msg mp).cls
      (table msg pre (msg mp).cls ++ table msg post (msg mp).cls) := by
  funext c
  by_cases hc : c = (msg mp).cls
  · rw [hc, update_self, table, lane_append, map_append]
    rfl
  · rw [update_of_ne hc]
    unfold table
    rw [lane_insert_ne (Ne.symm hc)]

theorem table_step_rmvq :
    Table.Step (table msg (pre ++ mp :: post)) (.rmvq mp) (table msg (pre ++ post)) := by
  have hremove : table msg (pre ++ post) = update (table msg (pre ++ mp :: post)) (msg mp).cls
      (table msg pre (msg mp).cls ++ table msg post (msg mp).cls) := table_remove
  rw [hremove]
  exact Table.Step.rmvq table_split

theorem table_filter :
    table msg (xs.filter fun a => p (msg a)) c = (table msg xs c).filter fun i => p i.2 := by
  unfold table lane
  rw [filter_map, filter_comm]
  rfl

theorem mem_table {i : Nat × Msg} (h : i ∈ table msg xs c) : i.1 ∈ xs ∧ i.2 = msg i.1 ∧ i.2.cls = c := by
  obtain ⟨a, ha, rfl⟩ := mem_map.mp h
  obtain ⟨hin, hc⟩ := mem_filter.mp ha
  exact ⟨hin, rfl, of_decide_eq_true hc⟩

end

section

variable {e : Prop} {avail : Nat → Bool} {st st' : State} {xs ys : List Nat} {bp fuel : Nat}
  {m : Msg} {event : Event} {events : List Event}

theorem table_gets {pre post : List Nat} {mp : Nat} (h : Inv e st (pre ++ mp :: post))
    (hpre : ∀ a ∈ pre, (st.msg a).noget = true) (hmp : (st.msg mp).noget = false) :
    (table st.msg (pre ++ mp :: post)).Gets mp (table st.msg (pre ++ post)) := by
  refine ⟨(st.msg mp).cls, _, _, _, table_split, hmp, fun i hi => ?_, fun c hc i hi => ?_, table_remove⟩
  · obtain ⟨hin, heq, -⟩ := mem_table hi
    rw [heq]
    exact hpre i.1 hin
  · obtain ⟨hin, heq, hcls⟩ := mem_table hi
    rw [heq] at hcls ⊢
    -- a message of a higher class is before this one
    rcases mem_append.mp hin with hin | hin
    · exact hpre i.1 hin
    have hle : (st.msg i.1).cls ≤ (st.msg mp).cls := by
      rcases mem_cons.mp hin with heq' | hin
      · exact Nat.le_of_eq (by rw [heq'])
      · exact (pairwise_cons.mp (pairwise_append.mp h.shape.sorted).2.1).1 i.1 hin
    omega

theorem table_flushband {pri : Nat} {flag : Bool} {drop : Msg → Bool}
    (hsame : ∀ a ∈ xs, (st.msg a).cls = pri → drop (st.msg a) = (flag || datamsg (st.msg a).dbType))
    (hother : ∀ a ∈ xs, (st.msg a).cls ≠ pri → drop (st.msg a) = false) :
    table st.msg (xs.filter fun a => !drop (st.msg a)) = update (table st.msg xs) pri
        ((table st.msg xs pri).filter fun i => !(flag || datamsg i.2.dbType)) := by
  funext c
  rw [table_filter (p := fun m => !drop m)]
  by_cases hc : c = pri
  · rw [hc, update_self]
    apply filter_congr
    intro i hi
    obtain ⟨hin, heq, hcls⟩ := mem_table hi
    rw [heq] at hcls ⊢
    rw [hsame i.1 hin hcls]
  · rw [update_of_ne hc, filter_eq_self]
    intro i hi
    obtain ⟨hin, heq, hcls⟩ := mem_table hi
    rw [heq] at hcls ⊢
    rw [hother i.1 hin (by omega)]
    rfl

theorem drop_class (h : Inv e st xs) {a : Nat} (ha : a ∈ xs) {flag : Bool} :
    ((st.msg a).cls = 0 → zeroDrop flag (st.msg a) = (flag || datamsg (st.msg a).dbType)) ∧
      ((st.msg a).cls ≠ 0 → zeroDrop flag (st.msg a) = false) ∧
      ∀ pri, 0 < pri → pri ≤ 255 →
        ((st.msg a).cls = pri → bandDrop pri flag (st.msg a) = (flag || datamsg (st.msg a).dbType)) ∧
        ((st.msg a).cls ≠ pri → bandDrop pri flag (st.msg a) = false) := by
  have hok := h.shape.ok a ha
  unfold zeroDrop bandDrop
  by_cases hhigh : qpctl ≤ (st.msg a).dbType
  · have hzero := hok.high hhigh
    have hnot : ¬ (st.msg a).dbType < qpctl := Nat.not_lt.mpr hhigh
    rw [cls_of_high hhigh]
    refine ⟨by simp, fun _ => by simp [hnot], fun pri hpri hle => ⟨by omega, fun _ => ?_⟩⟩
    have hne : ¬ 0 = pri := by omega
    simp [hzero, hne]
  · have hlt : (st.msg a).dbType < qpctl := Nat.not_le.mp hhigh
    rw [cls_of_not_high hhigh]
    exact ⟨fun heq => by simp [heq, hlt], fun hne => by simp [hne],
      fun pri _ _ => ⟨fun heq => by simp [heq], fun hne => by simp [hne]⟩⟩

theorem put_table {ok : Bool} (hbp : bp ∉ xs) (hput : Put e (st.setMsg bp m) st' bp ok ys) :
    st'.msg bp = m.norm ∧ (∀ a ∈ xs, st'.msg a = st.msg a) ∧ st'.freed = st.freed := by
  obtain ⟨links, q, calls, heq⟩ := hput.frame
  rw [setMsg_self] at heq
  rw [heq]
  refine ⟨update_self .., fun a ha => ?_, rfl⟩
  have hne := ne_of_mem_of_not_mem ha hbp
  exact (update_of_ne hne _ _).trans (update_of_ne hne _ _)

theorem Reput.freed {gone : List Nat} {st₁ : State} (h : Reput st.reset st₁ gone) :
    st₁.msg = st.msg ∧ st₁.freed = st.freed ++ gone := by
  obtain ⟨links, q, calls, heq⟩ := h.frame
  rw [heq]
  exact ⟨rfl, rfl⟩

theorem Behind.freed {bands : List Nat} (h : Behind avail st st' bands) :
    st'.msg = st.msg ∧ st'.freed = st.freed := by
  obtain ⟨back, calls, l, heq, -⟩ := h
  rw [heq]
  exact ⟨rfl, rfl⟩

theorem Take.freed (h : Take e avail st st' ys) : st'.freed = st.freed := by
  obtain ⟨links, q, bands, hbehind, -⟩ := h.behind
  exact hbehind.freed.2

def Balanced (st : State) (xs : List Nat) (event : Event) (st' : State) (ys : List Nat) : Prop :=
  ∀ a, (event.isPut a).toNat + xs.count a + st.freed.count a =
    (event.isTaken a).toNat + ys.count a + st'.freed.count a

theorem balanced_flush {drop : Nat → Bool} (hput : ∀ a, event.isPut a = false)
    (htaken : ∀ a, event.isTaken a = false) (hfreed : st'.freed = st.freed ++ xs.filter drop) :
    Balanced st xs event st' (xs.filter fun a => !drop a) := by
  intro a
  have hperm := (filter_append_perm drop xs).count_eq a
  rw [count_append] at hperm
  rw [hput, htaken, hfreed, count_append]
  omega

theorem balanced_put {pre post : List Nat} {ok : Bool} (hput : ∀ a, event.isPut a = (ok && decide (bp = a)))
    (htaken : ∀ a, event.isTaken a = false) (hfreed : st'.freed = st.freed) (hno : ok = false → ys = xs)
    (hyes : ok = true → xs = pre ++ post ∧ ys = pre ++ bp :: post) : Balanced st xs event st' ys := by
  intro a
  rw [hput, htaken, hfreed]
  cases ok with
  | false =>
    rw [hno rfl]
    simp
  | true =>
    obtain ⟨hxs, hys⟩ := hyes rfl
    rw [hxs, hys, count_append, count_append, count_cons]
    by_cases hbp : bp = a
    · simp [hbp]
      omega
    · simp [hbp]

theorem balanced_take {pre post : List Nat} {mp : Nat} (hput : ∀ a, event.isPut a = false)
    (htaken : ∀ a, event.isTaken a = decide (mp = a)) (hfreed : st'.freed = st.freed) :
    Balanced st (pre ++ mp :: post) event st' (pre ++ post) := by
  intro a
  rw [hput, htaken, hfreed, count_append, count_append, count_cons]
  by_cases hmp : mp = a
  · simp [hmp]
    omega
  · simp [hmp]

theorem balanced_same (hput : ∀ a, event.isPut a = false) (htaken : ∀ a, event.isTaken a = false)
    (hfreed : st'.freed = st.freed) : Balanced st xs event st' xs := by
  intro a
  rw [hput, htaken, hfreed]

/-- The queue does what the table does, and no message is lost or doubled. -/
theorem step_table (hstep : Step avail st event st') (h : Inv False st xs) :
    ∃ ys, Inv False st' ys ∧ Table.Step (table st.msg xs) event (table st'.msg ys) ∧
      Balanced st xs event st' ys := by
  cases hstep with
  | putq hbp hband hput =>
    rename_i bp fuel m ok
    rw [h.mem_iff] at hbp
    obtain ⟨ys, hres, hno, hyes⟩ := putq_result h hbp hband (fun he => he.elim) hput
    obtain ⟨hself, hmsg, hfreed⟩ := put_table hbp hres
    refine ⟨ys, hres.inv, ?_, ?_⟩
    · cases ok with
      | false =>
        rw [hno rfl, table_congr hmsg]
        exact Table.Step.putqFails
      | true =>
        obtain ⟨pre, post, rfl, rfl, -, hpost⟩ := hyes rfl
        have hlt : ∀ a ∈ post, (st'.msg a).cls < (st'.msg bp).cls := fun a ha => by
          have hin := mem_append_right pre ha
          have hset : (st.setMsg bp m).msg a = st.msg a :=
            update_of_ne (ne_of_mem_of_not_mem hin hbp) _ _
          rw [hmsg a hin, hself, ← hset]
          exact hpost a ha
        rw [table_push hlt, table_congr hmsg, hself]
        exact Table.Step.putq
    · cases ok with
      | false =>
        rw [hno rfl]
        exact balanced_same (fun _ => rfl) (fun _ => rfl) hfreed
      | true =>
        obtain ⟨pre, post, hxs, hys, -⟩ := hyes rfl
        exact balanced_put (fun _ => rfl) (fun _ => rfl) hfreed hno fun _ => ⟨hxs, hys⟩
  | putbq hbp hband hput =>
    rename_i bp fuel m ok
    rw [h.mem_iff] at hbp
    obtain ⟨ys, hres, hno, hyes⟩ := putbq_result h hbp hband (fun he => he.elim) hput
    obtain ⟨hself, hmsg, hfreed⟩ := put_table hbp hres
    refine ⟨ys, hres.inv, ?_, ?_⟩
    · cases ok with
      | false =>
        rw [hno rfl, table_congr hmsg]
        exact Table.Step.putbqFails
      | true =>
        obtain ⟨pre, post, rfl, rfl, hpre, -⟩ := hyes rfl
        have hlt : ∀ a ∈ pre, (st'.msg bp).cls < (st'.msg a).cls := fun a ha => by
          have hin := mem_append_left post ha
          have hset : (st.setMsg bp m).msg a = st.msg a :=
            update_of_ne (ne_of_mem_of_not_mem hin hbp) _ _
          rw [hmsg a hin, hself, ← hset]
          exact hpre a ha
        rw [table_unshift hlt, table_congr hmsg, hself]
        exact Table.Step.putbq
    · cases ok with
      | false =>
        rw [hno rfl]
        exact balanced_same (fun _ => rfl) (fun _ => rfl) hfreed
      | true =>
        obtain ⟨pre, post, hxs, hys, -⟩ := hyes rfl
        exact balanced_put (fun _ => rfl) (fun _ => rfl) hfreed hno fun _ => ⟨hxs, hys⟩
  | getq hget =>
    obtain ⟨ys, htake, hres⟩ := getq_result h hget
    refine ⟨ys, htake.inv, ?_, ?_⟩
    · rw [htake.msg]
      rcases hres with ⟨rfl, rfl, hall⟩ | ⟨pre, mp, post, rfl, rfl, rfl, hpre, hmp⟩
      · refine Table.Step.getqEmpty fun c i hi => ?_
        obtain ⟨hin, heq, -⟩ := mem_table hi
        rw [heq]
        exact hall i.1 hin
      · exact Table.Step.getq (table_gets h hpre hmp)
    · rcases hres with ⟨rfl, rfl, -⟩ | ⟨pre, mp, post, rfl, rfl, rfl, -, -⟩
      · exact balanced_same (fun _ => rfl) (fun _ => rfl) htake.freed
      · exact balanced_take (fun _ => rfl) (fun a => by simp [Event.isTaken]) htake.freed
  | rmvq hmp =>
    rw [h.mem_iff] at hmp
    obtain ⟨pre, post, rfl⟩ := append_of_mem hmp
    have htake := rmvq_take avail h
    refine ⟨pre ++ post, htake.inv, ?_, balanced_take (fun _ => rfl) (fun _ => rfl) htake.freed⟩
    rw [htake.msg]
    exact table_step_rmvq
  | flushq hflush =>
    rename_i fuel flag
    obtain ⟨st₁, hinv, hreput, -, hbehind⟩ := flushq_result h hflush
    refine ⟨_, hinv, ?_, ?_⟩
    · rw [hbehind.freed.1]
      rw [hreput.freed.1]
      have hfilter : (table st.msg (xs.filter fun a => !(flag || datamsg (st.msg a).dbType))) =
          fun c => (table st.msg xs c).filter fun i => !(flag || datamsg i.2.dbType) := by
        funext c
        exact table_filter (p := fun m => !(flag || datamsg m.dbType))
      rw [hfilter]
      exact Table.Step.flushq
    · refine balanced_flush (fun _ => rfl) (fun _ => rfl) ?_
      rw [hbehind.freed.2]
      exact hreput.freed.2
  | flushband hpri hflush =>
    rename_i fuel pri flag
    by_cases hzero : pri = 0
    · subst hzero
      obtain ⟨st₁, hinv, hreput, -, hbehind⟩ := flushband_zero_result h hflush
      refine ⟨_, hinv, ?_, ?_⟩
      · rw [hbehind.freed.1]
        rw [hreput.freed.1, table_flushband (fun a ha => (drop_class h ha).1)
          fun a ha => (drop_class h ha).2.1]
        exact Table.Step.flushband
      · refine balanced_flush (fun _ => rfl) (fun _ => rfl) ?_
        rw [hbehind.freed.2]
        exact hreput.freed.2
    · have hpos : 0 < pri := by omega
      have hle : pri ≤ 255 := by omega
      -- what is gone and what is left are the old list
      have hflushed := flushband_result
        (fun s ys => Inv False s ys ∧ (s.freed ++ ys).Perm (st.freed ++ xs)) h
        ⟨h, List.Perm.refl _⟩ hpos hle (fun _ _ h => h.1.shape.spells)
        (fun s front mp back hs => by
          have htake := rmvq_take avail hs.1
          refine ⟨⟨htake.inv.freemsg, ?_⟩, htake.msg⟩
          refine List.Perm.trans ?_ hs.2
          rw [freemsg]
          rw [htake.freed, append_assoc]
          refine List.Perm.append_left _ ?_
          rw [singleton_append]
          exact List.Perm.symm perm_middle) hflush
      obtain ⟨⟨hinv, hperm⟩, hmsg⟩ := hflushed
      refine ⟨_, hinv, ?_, fun a => ?_⟩
      · rw [hmsg, table_flushband (fun a ha => ((drop_class h ha).2.2 pri hpos hle).1)
          fun a ha => ((drop_class h ha).2.2 pri hpos hle).2]
        exact Table.Step.flushband
      · have hcount := hperm.count_eq a
        rw [count_append, count_append] at hcount
        simp only [Event.isPut, Event.isTaken, Bool.toNat_false]
        omega
  | canput hcan =>
    unfold canput at hcan
    split at hcan
    · cases hcan
      exact ⟨xs, wantw_same h fun _ => ⟨rfl, rfl, rfl⟩, Table.Step.canput,
        balanced_same (fun _ => rfl) (fun _ => rfl) rfl⟩
    · cases hcan
      exact ⟨xs, h, Table.Step.canput, balanced_same (fun _ => rfl) (fun _ => rfl) rfl⟩
  | bcanput hpri hcan =>
    unfold bcanput at hcan
    split at hcan
    · cases hcan
      exact ⟨xs, wantw_same h fun _ => ⟨rfl, rfl, rfl⟩, Table.Step.bcanput,
        balanced_same (fun _ => rfl) (fun _ => rfl) rfl⟩
    · cases hcan
      exact ⟨xs, h, Table.Step.bcanput, balanced_same (fun _ => rfl) (fun _ => rfl) rfl⟩
  | serve _ _ _ =>
    exact ⟨xs, ⟨h.shape, h.counted, h.exact⟩, Table.Step.serve,
      balanced_same (fun _ => rfl) (fun _ => rfl) rfl⟩

end

/-- The queue is a table of first-in first-out lists by class, of which `getq` takes the first
message of the highest class, MSGNOGET apart; and every message put is still queued, or has been
taken by its caller, or has been freed by a flush, each time it was put. -/
theorem queue_refines_table {avail : Nat → Bool} {st₀ st : State} {events : List Event}
    (h₀ : Initial st₀) (hrun : Exec (Step avail) st₀ events st) :
    ∃ xs, st.links.Spells xs ∧ (xs.Pairwise fun a b => (st.msg b).cls ≤ (st.msg a).cls) ∧
      Exec Table.Step (fun _ => []) events (table st.msg xs) ∧
      ∀ a, events.countP (Event.isPut a) =
        events.countP (Event.isTaken a) + st.freed.count a + xs.count a := by
  suffices hsim : ∃ xs, Inv False st xs ∧ Exec Table.Step (fun _ => []) events (table st.msg xs) ∧
      ∀ a, events.countP (Event.isPut a) =
        events.countP (Event.isTaken a) + st.freed.count a + xs.count a by
    obtain ⟨xs, h, hsim⟩ := hsim
    exact ⟨xs, h.shape.spells, h.shape.sorted, hsim⟩
  induction hrun with
  | nil =>
    refine ⟨[], h₀.inv, Exec.nil _, fun a => ?_⟩
    rw [h₀.freed]
    rfl
  | snoc _ hstep ih =>
    obtain ⟨xs, hinv, hsim, hcount⟩ := ih
    obtain ⟨ys, hinv', hstep', hbalanced⟩ := step_table hstep hinv
    refine ⟨ys, hinv', hsim.snoc hstep', fun a => ?_⟩
    have := hbalanced a
    rw [countP_append, countP_append, countP_singleton, countP_singleton]
    cases hput : Event.isPut a _ <;> cases htaken : Event.isTaken a _ <;>
      simp only [hput, htaken, Bool.toNat_false, Bool.toNat_true] at * <;> grind

/-- The table of lists, for a queue on which one message has been put. -/
theorem queue_refines_table_putq : ∃ (st : State) (xs : List Nat), st.links.Spells xs ∧
    Exec Table.Step (fun _ => []) [.putq 0 ⟨0, 0, false, [1]⟩ true] (table st.msg xs) := by
  obtain ⟨st, hstep, -⟩ := put_first Nat.one_pos 0 (m := ⟨0, 0, false, [1]⟩) rfl
  obtain ⟨xs, hspells, -, hsim, -⟩ :=
    queue_refines_table (emptyQueue_initial Nat.one_pos) (Exec.single hstep)
  exact ⟨st, xs, hspells, hsim⟩

/-- `getq` does not always return the first message of the highest class that has one. -/
theorem getq_not_head : ¬ ∀ (avail : Nat → Bool) (st₀ st st' : State) (events : List Event)
    (r : Option Nat), Initial st₀ → Exec (Step avail) st₀ events st → Step avail st (.getq r) st' →
      ∃ xs, st.links.Spells xs ∧ (xs.Pairwise fun a b => (st.msg b).cls ≤ (st.msg a).cls) ∧
        r = xs.head? := by
  intro h
  obtain ⟨st, hstep, hput⟩ := put_first Nat.one_pos 0 (m := ⟨0, 0, true, [1]⟩) rfl
  have hnoget : (st.msg 0).noget = true := by
    obtain ⟨links, q, calls, heq⟩ := hput.frame
    rw [heq]
    dsimp only
    rw [update_self, Msg.noget_norm, setMsg_self]
  obtain ⟨st', r, ys, hget, -, hres⟩ := getq_take (fun _ => true) 2 hput.inv (by decide)
  have hr : r = none := by
    rcases hres with ⟨hr, -⟩ | ⟨pre, mp, post, -, hxs, -, -, hmp⟩
    · exact hr
    · have hin : mp ∈ [0] := hxs ▸ by simp
      rw [mem_singleton.mp hin, hnoget] at hmp
      cases hmp
  obtain ⟨xs, hspells, -, hhead⟩ := h _ _ st st' _ r (emptyQueue_initial Nat.one_pos)
    (Exec.single hstep) (Step.getq hget)
  rw [← hput.inv.shape.spells.unique hspells, hr] at hhead
  cases hhead

end Svr42.Strm
