import Svr42.StreamModel

/-! The order of the messages on a queue, and the places at which they are linked in and out. -/

namespace Svr42.Strm
open Function List Option

def Msg.cls (m : Msg) : Nat := if qpctl ≤ m.dbType then 256 else m.bBand

/-- A message that can be on a queue with so many bands. -/
structure MsgOk (nband : Nat) (m : Msg) : Prop where
  high : qpctl ≤ m.dbType → m.bBand = 0
  band : m.bBand ≤ nband

def lane (msg : Nat → Msg) (c : Nat) (xs : List Nat) : List Nat :=
  xs.filter fun a => (msg a).cls = c

def Ends (msg : Nat → Msg) (bandp : List Qband) (xs : List Nat) : Prop :=
  ∀ pri qbp, 0 < pri → bandp[pri - 1]? = some qbp →
    qbp.qbFirst = (lane msg pri xs).head? ∧ qbp.qbLast = (lane msg pri xs).getLast?

/-- The links are those of the messages `xs`, by class, and the runs of the bands have their ends. -/
structure Shape (links : DList Nat) (msg : Nat → Msg) (bandp : List Qband) (xs : List Nat) :
    Prop where
  spells : links.Spells xs
  sorted : xs.Pairwise fun a b => (msg b).cls ≤ (msg a).cls
  ok : ∀ a ∈ xs, MsgOk bandp.length (msg a)
  ends : Ends msg bandp xs
  nband : bandp.length ≤ 255

section

variable {m : Msg} {n : Nat}

theorem cls_of_high (h : qpctl ≤ m.dbType) : m.cls = 256 := if_pos h

theorem cls_of_not_high (h : ¬ qpctl ≤ m.dbType) : m.cls = m.bBand := if_neg h

theorem queclass_of_high (h : qpctl ≤ m.dbType) : m.queclass = qpctl := if_pos h

theorem queclass_of_not_high (h : ¬ qpctl ≤ m.dbType) : m.queclass = qnorm := if_neg h

theorem MsgOk.cls_le (h : MsgOk n m) (hn : n ≤ 255) (hhigh : ¬ qpctl ≤ m.dbType) : m.cls ≤ 255 := by
  rw [cls_of_not_high hhigh]
  exact Nat.le_trans h.band hn

theorem high_of_cls (h : MsgOk n m) (hn : n ≤ 255) (hcls : 256 ≤ m.cls) : qpctl ≤ m.dbType := by
  by_contra hhigh
  have := h.cls_le hn hhigh
  omega

end

/-! ### The classes of a sorted list -/

section

variable {msg : Nat → Msg} {xs pre post : List Nat} {c : Nat}

theorem split_at (hsorted : xs.Pairwise fun a b => (msg b).cls ≤ (msg a).cls) (c : Nat) :
    ∃ pre post, xs = pre ++ post ∧ (∀ a ∈ pre, c ≤ (msg a).cls) ∧ ∀ a ∈ post, (msg a).cls < c := by
  induction xs with
  | nil => exact ⟨[], [], rfl, by simp, by simp⟩
  | cons x xs ih =>
    rw [pairwise_cons] at hsorted
    by_cases hx : c ≤ (msg x).cls
    · obtain ⟨pre, post, rfl, hpre, hpost⟩ := ih hsorted.2
      refine ⟨x :: pre, post, rfl, fun a ha => ?_, hpost⟩
      rcases mem_cons.mp ha with rfl | ha
      · exact hx
      · exact hpre a ha
    · refine ⟨[], x :: xs, rfl, by simp, fun a ha => ?_⟩
      rcases mem_cons.mp ha with rfl | ha
      · omega
      · have := hsorted.1 a ha
        omega

theorem lane_append : lane msg c (pre ++ post) = lane msg c pre ++ lane msg c post :=
  filter_append ..

theorem lane_eq_nil (h : ∀ a ∈ xs, (msg a).cls ≠ c) : lane msg c xs = [] := by
  rw [lane, filter_eq_nil_iff]
  intro a ha
  simpa using h a ha

section

variable (hsorted : xs.Pairwise fun a b => (msg b).cls ≤ (msg a).cls)
include hsorted

theorem lane_head (hle : ∀ a ∈ xs, (msg a).cls ≤ c) :
    (lane msg c xs).head? = xs.head?.filter fun a => (msg a).cls = c := by
  cases xs with
  | nil => rfl
  | cons x xs =>
    rw [pairwise_cons] at hsorted
    by_cases hx : (msg x).cls = c
    · simp [lane, hx, filter_some]
    have hlt := hle x (.head _)
    have hnone : lane msg c (x :: xs) = [] := by
      refine lane_eq_nil fun a ha => ?_
      rcases mem_cons.mp ha with rfl | ha
      · exact hx
      · have := hsorted.1 a ha
        omega
    rw [hnone]
    simp [hx, filter_some]

theorem lane_last (hle : ∀ a ∈ xs, c ≤ (msg a).cls) :
    (lane msg c xs).getLast? = xs.getLast?.filter fun a => (msg a).cls = c := by
  rcases eq_nil_or_concat xs with rfl | ⟨xs, x, rfl⟩
  · rfl
  rw [concat_eq_append] at *
  rw [pairwise_append] at hsorted
  rw [lane_append, getLast?_concat]
  by_cases hx : (msg x).cls = c
  · simp [lane, hx, filter_some]
  have hlt := hle x (by simp)
  have hnone : lane msg c (xs ++ [x]) = [] := by
    refine lane_eq_nil fun a ha => ?_
    rcases mem_append.mp ha with ha | ha
    · have := hsorted.2.2 a ha x (by simp)
      omega
    · rw [mem_singleton.mp ha]
      exact hx
  rw [← lane_append, hnone]
  simp [hx, filter_some]

end

end

/-! ### Where a message is linked in -/

section

variable {st : State} {xs pre post : List Nat} {bp fuel : Nat}

section

variable (h : Shape st.links st.msg st.q.bandp (pre ++ post))
include h

variable {stay : Msg → Bool}

/-- Past those of high priority and those that stay before. -/
theorem pastBands_ok (hpre : ∀ a ∈ pre, ¬ qpctl ≤ (st.msg a).dbType → stay (st.msg a) = true)
    (hpost : ∀ a ∈ post, ¬ qpctl ≤ (st.msg a).dbType ∧ stay (st.msg a) = false)
    (hfuel : (pre ++ post).length < fuel) {t : Nat} (ht : post.head? = some t) :
    pastBands fuel st stay = some t := by
  obtain ⟨rest, rfl⟩ := head?_eq_some_iff.mp ht
  have hsorted := (pairwise_append.mp h.sorted).1
  obtain ⟨high, mid, rfl, hhigh, hmid⟩ := split_at hsorted 256
  have hok : ∀ a ∈ high, qpctl ≤ (st.msg a).dbType := fun a ha =>
    high_of_cls (h.ok a (by simp [ha])) h.nband (hhigh a ha)
  have hlow : ∀ a ∈ mid, ¬ qpctl ≤ (st.msg a).dbType := fun a ha hlow => by
    have := hmid a ha
    rw [cls_of_high hlow] at this
    omega
  have hlen : high.length < fuel ∧ mid.length < fuel := by
    simp only [length_append] at hfuel
    omega
  have hfirst : st.links.first = (high ++ mid ++ t :: rest).head? := h.spells.first
  have hspells : st.links.Spells (high ++ mid ++ t :: rest) := h.spells
  have hsecond : DList.skip st.links.next (fun tmp => stay (st.msg tmp)) fuel
      (mid ++ t :: rest).head? = some t :=
    hspells.skip _ high mid (fun a ha => hpre a (by simp [ha]) (hlow a ha))
      (hpost t (by simp)).2 hlen.2
  have hskip : ∀ c rest', high ++ mid ++ t :: rest = high ++ c :: rest' →
      ¬ qpctl ≤ (st.msg c).dbType → DList.skip st.links.next
        (fun tmp => qpctl ≤ (st.msg tmp).dbType) fuel st.links.first = some c := by
    intro c rest' heq hc
    rw [hfirst, heq]
    rw [heq] at hspells
    exact DList.Spells.skip _ [] high hspells (fun a ha => decide_eq_true (hok a ha))
      (decide_eq_false hc) hlen.1
  rw [pastBands]
  cases mid with
  | nil =>
    rw [hskip t rest (by simp) (hpost t (by simp)).1]
    exact hsecond
  | cons c mid =>
    rw [hskip c (mid ++ t :: rest) (by simp) (hlow c (by simp))]
    exact hsecond

/-- To the end, or before the first message that does not stay before. -/
theorem linkByBand_ok (hbp : bp ∉ pre ++ post) (hne : pre ++ post ≠ [])
    (hnorm : (st.msg bp).queclass = qnorm)
    (hpre : ∀ a ∈ pre, ¬ qpctl ≤ (st.msg a).dbType → stay (st.msg a) = true)
    (hpost : ∀ a ∈ post, ¬ qpctl ≤ (st.msg a).dbType ∧ stay (st.msg a) = false)
    (hfuel : (pre ++ post).length < fuel) :
    ∃ links, linkByBand fuel st bp stay = some links ∧ links.Spells (pre ++ bp :: post) ∧
      DList.AgreeOff st.links links (bp :: (pre ++ post)) := by
  have hlast := h.spells.last
  obtain ⟨tmp, htmp⟩ : ∃ tmp, (pre ++ post).getLast? = some tmp := by
    exact ⟨_, getLast?_eq_some_getLast hne⟩
  rw [htmp] at hlast
  rw [linkByBand, hlast, bind_some]
  cases post with
  | nil =>
    rw [append_nil] at *
    have hcond : (st.msg bp).queclass < (st.msg tmp).queclass ∨ stay (st.msg tmp) = true := by
      by_cases hhigh : qpctl ≤ (st.msg tmp).dbType
      · left
        rw [hnorm, queclass_of_high hhigh]
        decide
      · right
        exact hpre tmp (mem_of_getLast? htmp) hhigh
    rw [if_pos hcond]
    exact ⟨_, rfl, h.spells.linkEnd hbp htmp, DList.agreeOff_linkEnd (mem_of_getLast? htmp)⟩
  | cons t post =>
    have htin : tmp ∈ t :: post := by
      rw [getLast?_append_cons] at htmp
      exact mem_of_getLast? htmp
    have hcond : ¬ ((st.msg bp).queclass < (st.msg tmp).queclass ∨ stay (st.msg tmp) = true) := by
      obtain ⟨hhigh, hstay⟩ := hpost tmp htin
      rw [hnorm, queclass_of_not_high hhigh, hstay]
      decide
    rw [if_neg hcond, pastBands_ok h hpre hpost hfuel rfl]
    exact ⟨_, rfl, h.spells.linkBefore hbp rfl, h.spells.agreeOff_linkBefore hbp rfl⟩

section

variable (hbp : bp ∉ pre ++ post) (hok : MsgOk st.q.bandp.length (st.msg bp))
include hbp hok

/-- The message after all of its class. -/
theorem putqLinks_ok (hpre : ∀ a ∈ pre, (st.msg bp).cls ≤ (st.msg a).cls)
    (hpost : ∀ a ∈ post, (st.msg a).cls < (st.msg bp).cls) (hfuel : (pre ++ post).length < fuel) :
    ∃ links, putqLinks fuel st bp = some links ∧ links.Spells (pre ++ bp :: post) ∧
      DList.AgreeOff st.links links (bp :: (pre ++ post)) := by
  have hfirst := h.spells.first
  have hlast := h.spells.last
  by_cases hne : pre ++ post = []
  · obtain ⟨rfl, rfl⟩ := append_eq_nil_iff.mp hne
    have hnone : st.links.first = none := hfirst
    rw [putqLinks, if_pos hnone]
    exact ⟨_, rfl, DList.spells_linkOnly _ bp, DList.agreeOff_linkOnly bp⟩
  have hsome : st.links.first ≠ none := by
    rw [hfirst]
    simpa using hne
  obtain ⟨tmp, htmp⟩ : ∃ tmp, (pre ++ post).getLast? = some tmp := ⟨_, getLast?_eq_some_getLast hne⟩
  rw [htmp] at hlast
  rw [putqLinks, if_neg hsome]
  by_cases hband : (st.msg bp).bBand = 0
  · rw [if_pos hband, hlast, bind_some]
    cases post with
    | nil =>
      rw [append_nil] at *
      have hin := mem_of_getLast? htmp
      have hcls := hpre tmp hin
      have hcond : (st.msg bp).queclass ≤ (st.msg tmp).queclass := by
        by_cases hhigh : qpctl ≤ (st.msg bp).dbType
        · rw [cls_of_high hhigh] at hcls
          have hsame := high_of_cls (h.ok tmp hin) h.nband hcls
          exact Nat.le_of_eq (by rw [queclass_of_high hhigh, queclass_of_high hsame])
        · rw [queclass_of_not_high hhigh]
          exact Nat.zero_le _
      rw [if_pos hcond]
      exact ⟨_, rfl, h.spells.linkEnd hbp htmp, DList.agreeOff_linkEnd hin⟩
    | cons t post =>
      have htin : tmp ∈ t :: post := by
        rw [getLast?_append_cons] at htmp
        exact mem_of_getLast? htmp
      have hhigh : qpctl ≤ (st.msg bp).dbType := by
        by_contra hhigh
        have hlt := hpost t (.head _)
        rw [cls_of_not_high hhigh, hband] at hlt
        omega
      have hlow : ∀ a ∈ t :: post, ¬ qpctl ≤ (st.msg a).dbType := fun a ha hlow => by
        have hlt := hpost a ha
        rw [cls_of_high hhigh, cls_of_high hlow] at hlt
        omega
      have hpass : ∀ a ∈ pre,
          (fun tmp => decide ((st.msg bp).queclass ≤ (st.msg tmp).queclass)) a = true := by
        intro a ha
        have hcls := hpre a ha
        rw [cls_of_high hhigh] at hcls
        simp only [decide_eq_true_eq]
        have hsame := high_of_cls (h.ok a (mem_append_left _ ha)) h.nband hcls
        exact Nat.le_of_eq (by rw [queclass_of_high hhigh, queclass_of_high hsame])
      have hstop : ∀ a ∈ t :: post, decide ((st.msg bp).queclass ≤ (st.msg a).queclass) = false := by
        intro a ha
        rw [queclass_of_high hhigh, queclass_of_not_high (hlow a ha)]
        decide
      have hcond : ¬ (st.msg bp).queclass ≤ (st.msg tmp).queclass := by
        simpa using hstop tmp htin
      have hspells : st.links.Spells ([] ++ pre ++ t :: post) := h.spells
      rw [length_append] at hfuel
      have hskip := hspells.skip _ [] pre hpass (hstop t (.head _))
        (Nat.lt_of_le_of_lt (Nat.le_add_right _ _) hfuel)
      rw [if_neg hcond, hfirst, hskip]
      exact ⟨_, rfl, h.spells.linkBefore hbp rfl, h.spells.agreeOff_linkBefore hbp rfl⟩
  · have hhigh : ¬ qpctl ≤ (st.msg bp).dbType := fun hhigh => hband (hok.high hhigh)
    have hcls := cls_of_not_high hhigh
    obtain ⟨qbp, hqbp⟩ : ∃ qbp, st.q.band (st.msg bp).bBand = some qbp := by
      have := hok.band
      exact ⟨_, List.getElem?_eq_getElem (by omega)⟩
    obtain ⟨hends, hends'⟩ := h.ends _ qbp (Nat.pos_of_ne_zero hband) hqbp
    have hlane : lane st.msg (st.msg bp).bBand post = [] := by
      refine lane_eq_nil fun a ha => ?_
      have := hpost a ha
      omega
    rw [lane_append, hlane, append_nil] at hends hends'
    rw [if_neg hband, hqbp, bind_some]
    split_ifs with hempty
    · refine linkByBand_ok h hbp hne (queclass_of_not_high hhigh) (fun a ha hlow => ?_)
        (fun a ha => ?_) hfuel
      · have hle := hpre a ha
        rw [hcls, cls_of_not_high hlow] at hle
        exact decide_eq_true hle
      · have hlt := hpost a ha
        rw [hcls] at hlt
        have hlow : ¬ qpctl ≤ (st.msg a).dbType := fun hlow => by
          have hle := hok.cls_le h.nband hhigh
          rw [cls_of_high hlow] at hlt
          omega
        rw [cls_of_not_high hlow] at hlt
        exact ⟨hlow, decide_eq_false (by omega)⟩
    · have hsorted := (pairwise_append.mp h.sorted).1
      have hle : ∀ a ∈ pre, (st.msg bp).bBand ≤ (st.msg a).cls := fun a ha => hcls ▸ hpre a ha
      rw [lane_last hsorted hle] at hends'
      have hnil : lane st.msg (st.msg bp).bBand pre ≠ [] := by
        intro hnil
        rw [hnil] at hends
        exact hempty hends
      obtain ⟨t, ht⟩ : ∃ t, (lane st.msg (st.msg bp).bBand pre).getLast? = some t :=
        ⟨_, getLast?_eq_some_getLast hnil⟩
      rw [lane_last hsorted hle] at ht
      rw [hends', ht]
      rw [filter_eq_some_iff] at ht
      exact ⟨_, rfl, h.spells.linkAfter hbp ht.1, h.spells.agreeOff_linkAfter hbp ht.1⟩

/-- The message before all of its class. -/
theorem putbqLinks_ok (hpre : ∀ a ∈ pre, (st.msg bp).cls < (st.msg a).cls)
    (hpost : ∀ a ∈ post, (st.msg a).cls ≤ (st.msg bp).cls) (hfuel : (pre ++ post).length < fuel) :
    ∃ links, putbqLinks fuel st bp = some links ∧ links.Spells (pre ++ bp :: post) ∧
      DList.AgreeOff st.links links (bp :: (pre ++ post)) := by
  have hfirst := h.spells.first
  by_cases hfront : st.links.first = none ∨ (st.msg bp).queclass = qpctl
  · have hnil : pre = [] := by
      rcases hfront with hnone | hhigh
      · rw [hnone, eq_comm, head?_eq_none_iff] at hfirst
        exact (append_eq_nil_iff.mp hfirst).1
      have hhigh : qpctl ≤ (st.msg bp).dbType := by
        by_contra hlow
        rw [queclass_of_not_high hlow] at hhigh
        exact absurd hhigh (by decide)
      rw [eq_nil_iff_forall_not_mem]
      intro a ha
      have hlt := hpre a ha
      rw [cls_of_high hhigh] at hlt
      have := high_of_cls (h.ok a (by simp [ha])) h.nband (Nat.le_of_lt hlt)
      rw [cls_of_high this] at hlt
      omega
    subst hnil
    rw [putbqLinks, if_pos hfront]
    exact ⟨_, rfl, h.spells.linkFront hbp, h.spells.agreeOff_linkFront⟩
  · obtain ⟨hsome, hlow⟩ := not_or.mp hfront
    have hhigh : ¬ qpctl ≤ (st.msg bp).dbType := fun hhigh => hlow (queclass_of_high hhigh)
    have hcls := cls_of_not_high hhigh
    have hne : pre ++ post ≠ [] := fun hne => by
      rw [hne] at hfirst
      exact hsome hfirst
    have hpass : ∀ a ∈ pre, ¬ qpctl ≤ (st.msg a).dbType →
        (fun tmp : Msg => decide ((st.msg bp).bBand < tmp.bBand)) (st.msg a) = true := by
      intro a ha hlow
      have hlt := hpre a ha
      rw [hcls, cls_of_not_high hlow] at hlt
      exact decide_eq_true hlt
    have hstop : ∀ a ∈ post, ¬ qpctl ≤ (st.msg a).dbType ∧
        (fun tmp : Msg => decide ((st.msg bp).bBand < tmp.bBand)) (st.msg a) = false := by
      intro a ha
      have hle := hpost a ha
      have hbound := hok.cls_le h.nband hhigh
      have hlow : ¬ qpctl ≤ (st.msg a).dbType := fun hlow => by
        rw [cls_of_high hlow] at hle
        omega
      rw [hcls, cls_of_not_high hlow] at hle
      exact ⟨hlow, decide_eq_false (by omega)⟩
    rw [putbqLinks, if_neg hfront]
    by_cases hband : (st.msg bp).bBand = 0
    · rw [if_pos hband]
      exact linkByBand_ok h hbp hne (queclass_of_not_high hhigh) hpass hstop hfuel
    obtain ⟨qbp, hqbp⟩ : ∃ qbp, st.q.band (st.msg bp).bBand = some qbp := by
      have := hok.band
      exact ⟨_, List.getElem?_eq_getElem (by omega)⟩
    obtain ⟨hends, -⟩ := h.ends _ qbp (Nat.pos_of_ne_zero hband) hqbp
    have hlane : lane st.msg (st.msg bp).bBand pre = [] := by
      refine lane_eq_nil fun a ha => ?_
      have := hpre a ha
      omega
    have hsorted := (pairwise_append.mp h.sorted).2.1
    have hle : ∀ a ∈ post, (st.msg a).cls ≤ (st.msg bp).bBand := fun a ha => hcls ▸ hpost a ha
    rw [lane_append, hlane, nil_append, lane_head hsorted hle] at hends
    rw [if_neg hband, hqbp, bind_some]
    cases hempty : qbp.qbFirst with
    | none => exact linkByBand_ok h hbp hne (queclass_of_not_high hhigh) hpass hstop hfuel
    | some t =>
      rw [hempty, eq_comm, filter_eq_some_iff] at hends
      exact ⟨_, rfl, h.spells.linkBefore hbp hends.1, h.spells.agreeOff_linkBefore hbp hends.1⟩

end

end

end

/-! ### The runs of the bands -/

def Qband.ends (qbp : Qband) : Option Nat × Option Nat := (qbp.qbFirst, qbp.qbLast)

def Queue.SameFlows (q q' : Queue) : Prop :=
  ∃ bandp, q' = { q with bandp := bandp } ∧ bandp.map Qband.flow = q.bandp.map Qband.flow

theorem Queue.SameFlows.refl {q : Queue} : q.SameFlows q := ⟨q.bandp, rfl, rfl⟩

theorem Queue.SameFlows.setBand {q : Queue} {pri : Nat} {qbp qbp' : Qband} (h : q.band pri = some qbp)
    (hflow : qbp'.flow = qbp.flow) : q.SameFlows (q.setBand pri qbp') := by
  refine ⟨_, rfl, ?_⟩
  apply ext_getElem?
  intro i
  rw [map_set, List.getElem?_set]
  split
  · rename_i heq
    subst heq
    have hlt := (List.getElem?_eq_some_iff.mp h).1
    rw [length_map, if_pos hlt, List.getElem?_map, hflow]
    rw [Queue.band] at h
    rw [h, map_some]
  · rfl

theorem Queue.SameFlows.length {q q' : Queue} (h : q.SameFlows q') :
    q'.bandp.length = q.bandp.length := by
  obtain ⟨bandp, rfl, hmap⟩ := h
  simpa using congrArg List.length hmap

section

variable {links links' : DList Nat} {msg msg' : Nat → Msg} {bandp bandp' : List Qband} {qbp : Qband}
  {xs xs' pre post : List Nat} {bp pri c : Nat} {m : Msg}

theorem lane_congr (h : ∀ a ∈ xs, msg' a = msg a) : lane msg' c xs = lane msg c xs := by
  apply filter_congr
  intro a ha
  rw [h a ha]

theorem lane_insert_ne (h : (msg bp).cls ≠ c) : lane msg c (pre ++ bp :: post) = lane msg c (pre ++ post) := by
  simp [lane, h]

theorem lane_insert_eq (h : (msg bp).cls = c) :
    lane msg c (pre ++ bp :: post) = lane msg c pre ++ bp :: lane msg c post := by
  simp [lane, h]

theorem Ends.same (h : Ends msg bandp xs)
    (hlane : ∀ pri, 0 < pri → pri ≤ bandp.length → lane msg pri xs' = lane msg pri xs) :
    Ends msg bandp xs' := by
  intro pri qbp hpri hqbp
  have hlt := (List.getElem?_eq_some_iff.mp hqbp).1
  rw [hlane pri hpri (by omega)]
  exact h pri qbp hpri hqbp

theorem Ends.set (h : Ends msg bandp xs) (hpri : 0 < pri)
    (hlane : ∀ c, c ≠ pri → c ≤ bandp.length → lane msg c xs' = lane msg c xs)
    (hfirst : qbp.qbFirst = (lane msg pri xs').head?)
    (hlast : qbp.qbLast = (lane msg pri xs').getLast?) : Ends msg (bandp.set (pri - 1) qbp) xs' := by
  intro c qbp' hc hqbp'
  have hlt := (List.getElem?_eq_some_iff.mp hqbp').1
  rw [length_set] at hlt
  rw [List.getElem?_set] at hqbp'
  by_cases heq : pri - 1 = c - 1
  · obtain rfl : pri = c := by omega
    rw [if_pos rfl, if_pos hlt, some.injEq] at hqbp'
    rw [← hqbp']
    exact ⟨hfirst, hlast⟩
  · rw [if_neg heq] at hqbp'
    rw [hlane c (fun hcp => heq (by rw [hcp])) (by omega)]
    exact h c qbp' hc hqbp'

theorem Ends.congr (h : Ends msg bandp xs) (hends : bandp'.map Qband.ends = bandp.map Qband.ends) :
    Ends msg bandp' xs := by
  intro pri qbp hpri hqbp
  have hat : (bandp.map Qband.ends)[pri - 1]? = some qbp.ends := by
    rw [← hends, List.getElem?_map, hqbp, map_some]
  rw [List.getElem?_map, map_eq_some_iff] at hat
  obtain ⟨old, hold, heq⟩ := hat
  obtain ⟨hfirst, hlast⟩ := Prod.mk.inj heq
  rw [← hfirst, ← hlast]
  exact h pri old hpri hold

section

variable (h : Shape links msg bandp xs)
include h

theorem Shape.congr
    (hends : bandp'.map Qband.ends = bandp.map Qband.ends) : Shape links msg bandp' xs := by
  have hlen : bandp'.length = bandp.length := by
    simpa using congrArg length hends
  exact ⟨h.spells, h.sorted, hlen ▸ h.ok, h.ends.congr hends, hlen ▸ h.nband⟩

theorem Shape.setMsg (hbp : bp ∉ xs) : Shape links (update msg bp m) bandp xs := by
  have hsame : ∀ a ∈ xs, update msg bp m a = msg a := fun a ha =>
    update_of_ne (ne_of_mem_of_not_mem ha hbp) _ _
  refine ⟨h.spells, ?_, fun a ha => by rw [hsame a ha]; exact h.ok a ha, ?_, h.nband⟩
  · refine h.sorted.imp_of_mem fun ha hb hle => ?_
    rwa [hsame _ ha, hsame _ hb]
  · intro pri qbp hpri hqbp
    rw [lane_congr hsame]
    exact h.ends pri qbp hpri hqbp

/-- New bands have no messages. -/
theorem Shape.grow {n : Nat} (hfirst : qbp.qbFirst = none)
    (hlast : qbp.qbLast = none) (hn : bandp.length + n ≤ 255) :
    Shape links msg (bandp ++ List.replicate n qbp) xs := by
  refine ⟨h.spells, h.sorted, fun a ha => ?_, ?_, ?_⟩
  · refine ⟨(h.ok a ha).high, Nat.le_trans (h.ok a ha).band ?_⟩
    rw [length_append]
    exact Nat.le_add_right _ _
  · intro pri qbp' hpri hqbp'
    by_cases hold : pri - 1 < bandp.length
    · rw [List.getElem?_append_left hold] at hqbp'
      exact h.ends pri qbp' hpri hqbp'
    have hlt := (List.getElem?_eq_some_iff.mp hqbp').1
    rw [length_append, length_replicate] at hlt
    rw [List.getElem?_append_right (by omega), List.getElem?_replicate] at hqbp'
    have hnil : lane msg pri xs = [] := by
      refine lane_eq_nil fun a ha => ?_
      by_cases hhigh : qpctl ≤ (msg a).dbType
      · rw [cls_of_high hhigh]
        omega
      · have := (h.ok a ha).band
        rw [cls_of_not_high hhigh]
        omega
    split at hqbp'
    · cases hqbp'
      rw [hnil, hfirst, hlast]
      exact ⟨rfl, rfl⟩
    · cases hqbp'
  · rw [length_append, length_replicate]
    exact hn

end

theorem sorted_insert (h : (pre ++ post).Pairwise fun a b => (msg b).cls ≤ (msg a).cls)
    (hpre : ∀ a ∈ pre, (msg bp).cls ≤ (msg a).cls) (hpost : ∀ a ∈ post, (msg a).cls ≤ (msg bp).cls) :
    (pre ++ bp :: post).Pairwise fun a b => (msg b).cls ≤ (msg a).cls := by
  rw [pairwise_append] at h ⊢
  refine ⟨h.1, pairwise_cons.mpr ⟨hpost, h.2.1⟩, fun a ha b hb => ?_⟩
  rcases mem_cons.mp hb with rfl | hb
  · exact hpre a ha
  · exact h.2.2 a ha b hb

/-- A message linked in where its class is, with the run of its band set accordingly. -/
theorem Shape.inserted (h : Shape links msg bandp (pre ++ post))
    (hspells : links'.Spells (pre ++ bp :: post)) (hok : MsgOk bandp.length (msg bp))
    (hpre : ∀ a ∈ pre, (msg bp).cls ≤ (msg a).cls) (hpost : ∀ a ∈ post, (msg a).cls ≤ (msg bp).cls)
    (hends : Ends msg bandp' (pre ++ bp :: post)) (hlen : bandp'.length = bandp.length) :
    Shape links' msg bandp' (pre ++ bp :: post) := by
  refine ⟨hspells, sorted_insert h.sorted hpre hpost, fun a ha => ?_, hends, hlen ▸ h.nband⟩
  rw [hlen]
  rcases mem_append.mp ha with ha | ha
  · exact h.ok a (mem_append_left _ ha)
  · rcases mem_cons.mp ha with rfl | ha
    · exact hok
    · exact h.ok a (mem_append_right _ ha)

theorem Shape.removed (h : Shape links msg bandp (pre ++ bp :: post))
    (hspells : links'.Spells (pre ++ post)) (hends : Ends msg bandp' (pre ++ post))
    (hlen : bandp'.length = bandp.length) : Shape links' msg bandp' (pre ++ post) := by
  have hsub : (pre ++ post).Sublist (pre ++ bp :: post) := by simp
  refine ⟨hspells, h.sorted.sublist hsub, fun a ha => ?_, hends, hlen ▸ h.nband⟩
  rw [hlen]
  exact h.ok a (hsub.subset ha)

end

/-! ### The operations -/

section

variable {st : State} {xs pre post : List Nat} {bp mp fuel : Nat}

section

variable (h : MsgOk st.q.bandp.length (st.msg bp)) (hband : (st.msg bp).bBand ≠ 0)
include h hband

theorem band_eq_some : ∃ qbp, st.q.band (st.msg bp).bBand = some qbp := by
  have := h.band
  exact ⟨_, List.getElem?_eq_getElem (by omega)⟩

theorem cls_of_band : (st.msg bp).cls = (st.msg bp).bBand :=
  cls_of_not_high fun hhigh => hband (h.high hhigh)

end

theorem empty_run {bandp : List Qband} {pri : Nat} {first x y : Option Nat}
    (h : Shape st.links st.msg bandp xs) (hfirst : first = (lane st.msg pri xs).head?) :
    (if st.links.first = none ∨ first = none then x else y) = if first = none then x else y := by
  refine if_congr (or_iff_right_of_imp fun hnone => ?_) rfl rfl
  rw [h.spells.first, head?_eq_none_iff] at hnone
  rw [hfirst, hnone]
  rfl

theorem lane_insert_zero (hn : st.q.bandp.length ≤ 255) (hband : (st.msg bp).bBand = 0) (pri : Nat)
    (hpri : 0 < pri) (hle : pri ≤ st.q.bandp.length) :
    lane st.msg pri (pre ++ bp :: post) = lane st.msg pri (pre ++ post) := by
  apply lane_insert_ne
  by_cases hhigh : qpctl ≤ (st.msg bp).dbType
  · rw [cls_of_high hhigh]
    omega
  · rw [cls_of_not_high hhigh]
    omega

section

variable (h : Shape st.links st.msg st.q.bandp (pre ++ post))
  (hok : MsgOk st.q.bandp.length (st.msg bp))
include h hok

theorem putqEnds_ends (hpost : ∀ a ∈ post, (st.msg a).cls < (st.msg bp).cls) :
    Ends st.msg (putqEnds st bp).bandp (pre ++ bp :: post) := by
  rw [putqEnds]
  split_ifs with hband
  · exact h.ends.same (lane_insert_zero h.nband hband)
  · obtain ⟨qbp, hqbp⟩ := band_eq_some hok hband
    have hcls := cls_of_band hok hband
    obtain ⟨hfirst, -⟩ := h.ends _ qbp (Nat.pos_of_ne_zero hband) hqbp
    have hlane : lane st.msg (st.msg bp).bBand post = [] := by
      refine lane_eq_nil fun a ha => ?_
      have := hpost a ha
      omega
    rw [lane_append, hlane, append_nil] at hfirst
    rw [hqbp]
    refine h.ends.set (Nat.pos_of_ne_zero hband) (fun c hc _ => lane_insert_ne (hcls ▸ hc.symm)) ?_ ?_
    · rw [lane_insert_eq hcls, hlane]
      rw [empty_run h (h.ends _ qbp (Nat.pos_of_ne_zero hband) hqbp).1, hfirst]
      cases hpre : lane st.msg (st.msg bp).bBand pre with
      | nil => rfl
      | cons _ _ => rfl
    · rw [lane_insert_eq hcls, hlane, getLast?_concat]

theorem putbqEnds_ends (hpre : ∀ a ∈ pre, (st.msg bp).cls < (st.msg a).cls) :
    Ends st.msg (putbqEnds st bp).bandp (pre ++ bp :: post) := by
  rw [putbqEnds]
  split_ifs with hband
  · exact h.ends.same (lane_insert_zero h.nband hband)
  · obtain ⟨qbp, hqbp⟩ := band_eq_some hok hband
    have hcls := cls_of_band hok hband
    obtain ⟨hfirst, hlast⟩ := h.ends _ qbp (Nat.pos_of_ne_zero hband) hqbp
    have hlane : lane st.msg (st.msg bp).bBand pre = [] := by
      refine lane_eq_nil fun a ha => ?_
      have := hpre a ha
      omega
    rw [lane_append, hlane, nil_append] at hfirst hlast
    rw [hqbp]
    refine h.ends.set (Nat.pos_of_ne_zero hband) (fun c hc _ => lane_insert_ne (hcls ▸ hc.symm)) ?_ ?_
    · rw [lane_insert_eq hcls, hlane]
      rfl
    · rw [lane_insert_eq hcls, hlane, nil_append]
      rw [empty_run h (h.ends _ qbp (Nat.pos_of_ne_zero hband) hqbp).1, hfirst, hlast]
      cases hpost : lane st.msg (st.msg bp).bBand post with
      | nil => rfl
      | cons _ _ => exact getLast?_cons_cons.symm

end

theorem putqEnds_sameFlows : st.q.SameFlows (putqEnds st bp) := by
  simp only [putqEnds]
  split
  · exact Queue.SameFlows.refl
  · split
    · exact Queue.SameFlows.refl
    · rename_i _ _ hqbp
      exact Queue.SameFlows.setBand hqbp rfl

theorem putbqEnds_sameFlows : st.q.SameFlows (putbqEnds st bp) := by
  simp only [putbqEnds]
  split
  · exact Queue.SameFlows.refl
  · split
    · exact Queue.SameFlows.refl
    · rename_i _ _ hqbp
      exact Queue.SameFlows.setBand hqbp rfl

theorem rmvqEnds_sameFlows : st.q.SameFlows (rmvqEnds st mp) := by
  simp only [rmvqEnds]
  split
  · exact Queue.SameFlows.refl
  · split
    · exact Queue.SameFlows.refl
    · rename_i _ _ hqbp
      exact Queue.SameFlows.setBand hqbp rfl

theorem getqEnds_sameFlows : st.q.SameFlows (getqEnds st mp) := by
  simp only [getqEnds]
  split
  · exact Queue.SameFlows.refl
  · split
    · exact Queue.SameFlows.refl
    · rename_i _ _ hqbp
      split
      · exact Queue.SameFlows.setBand hqbp rfl
      · exact Queue.SameFlows.setBand hqbp rfl

section

variable (h : Shape st.links st.msg st.q.bandp (pre ++ post)) (hbp : bp ∉ pre ++ post)
  (hok : MsgOk st.q.bandp.length (st.msg bp))
include h hbp hok

theorem putq_shape (hpre : ∀ a ∈ pre, (st.msg bp).cls ≤ (st.msg a).cls)
    (hpost : ∀ a ∈ post, (st.msg a).cls < (st.msg bp).cls) (hfuel : (pre ++ post).length < fuel) :
    ∃ links, putqLinks fuel st bp = some links ∧
      Shape links st.msg (putqEnds st bp).bandp (pre ++ bp :: post) ∧
      DList.AgreeOff st.links links (bp :: (pre ++ post)) := by
  obtain ⟨links, heq, hspells, hoff⟩ := putqLinks_ok h hbp hok hpre hpost hfuel
  refine ⟨links, heq, ?_, hoff⟩
  exact h.inserted hspells hok hpre (fun a ha => Nat.le_of_lt (hpost a ha))
    (putqEnds_ends h hok hpost) putqEnds_sameFlows.length

theorem putbq_shape (hpre : ∀ a ∈ pre, (st.msg bp).cls < (st.msg a).cls)
    (hpost : ∀ a ∈ post, (st.msg a).cls ≤ (st.msg bp).cls) (hfuel : (pre ++ post).length < fuel) :
    ∃ links, putbqLinks fuel st bp = some links ∧
      Shape links st.msg (putbqEnds st bp).bandp (pre ++ bp :: post) := by
  obtain ⟨links, heq, hspells, -⟩ := putbqLinks_ok h hbp hok hpre hpost hfuel
  refine ⟨links, heq, ?_⟩
  exact h.inserted hspells hok (fun a ha => Nat.le_of_lt (hpre a ha)) hpost
    (putbqEnds_ends h hok hpre) putbqEnds_sameFlows.length

end

theorem filter_band (h : Shape st.links st.msg st.q.bandp xs) {pri : Nat} (hpri : 0 < pri)
    (hle : pri ≤ 255) {o : Option Nat} (ho : ∀ a, o = some a → a ∈ xs) :
    (o.filter fun a => (st.msg a).bBand = pri) = o.filter fun a => (st.msg a).cls = pri := by
  cases o with
  | none => rfl
  | some a =>
    have hok := h.ok a (ho a rfl)
    by_cases hhigh : qpctl ≤ (st.msg a).dbType
    · have := hok.high hhigh
      have := cls_of_high hhigh
      rw [filter_some, filter_some, if_neg (by simp; omega), if_neg (by simp; omega)]
    · rw [filter_some, filter_some, cls_of_not_high hhigh]

theorem rmvq_shape (h : Shape st.links st.msg st.q.bandp (pre ++ mp :: post)) :
    Shape (st.links.unlink mp) st.msg (rmvqEnds st mp).bandp (pre ++ post) := by
  have hok := h.ok mp (by simp)
  refine h.removed h.spells.unlink ?_ rmvqEnds_sameFlows.length
  rw [rmvqEnds]
  split_ifs with hband
  · exact h.ends.same fun pri hpri hle => (lane_insert_zero h.nband hband pri hpri hle).symm
  · obtain ⟨qbp, hqbp⟩ := band_eq_some hok hband
    have hcls := cls_of_band hok hband
    have hpos := Nat.pos_of_ne_zero hband
    have hbound := Nat.le_trans hok.band h.nband
    obtain ⟨hfirst, hlast⟩ := h.ends _ qbp hpos hqbp
    obtain ⟨hnext, hprev⟩ := h.spells.links pre mp post rfl
    obtain ⟨hpre, hpost, hle⟩ := pairwise_append.mp h.sorted
    rw [pairwise_cons] at hpost
    have hnodup := h.spells.nodup
    rw [lane_insert_eq hcls] at hfirst hlast
    rw [hqbp]
    refine h.ends.set hpos (fun c hc _ => (lane_insert_ne (hcls ▸ hc.symm)).symm) ?_ ?_
    · rw [lane_append]
      by_cases hmp : qbp.qbFirst = some mp
      · have hnil : lane st.msg (st.msg mp).bBand pre = [] := by
          cases hlane : lane st.msg (st.msg mp).bBand pre with
          | nil => rfl
          | cons a rest =>
            rw [hfirst, hlane, cons_append, head?_cons, some.injEq] at hmp
            have : mp ∈ pre := mem_of_mem_filter (hmp ▸ hlane ▸ mem_cons_self)
            grind
        rw [if_pos hmp, hnil, nil_append, hnext, filter_band h hpos hbound,
          lane_head hpost.2 (fun a ha => hcls ▸ hpost.1 a ha)]
        intro a ha
        exact mem_append_right _ (mem_cons_of_mem _ (mem_of_head? ha))
      · rw [if_neg hmp, hfirst]
        cases hlane : lane st.msg (st.msg mp).bBand pre with
        | nil =>
          rw [hlane] at hfirst
          exact absurd hfirst hmp
        | cons a rest => rfl
    · rw [lane_append]
      by_cases hmp : qbp.qbLast = some mp
      · have hnil : lane st.msg (st.msg mp).bBand post = [] := by
          cases hlane : lane st.msg (st.msg mp).bBand post with
          | nil => rfl
          | cons a rest =>
            rw [hlast, hlane, getLast?_append_cons, getLast?_cons_cons] at hmp
            have : mp ∈ post := mem_of_mem_filter (hlane ▸ mem_of_getLast? hmp)
            grind
        dsimp only
        rw [if_pos hmp, hnil, append_nil, hprev, filter_band h hpos hbound,
          lane_last hpre (fun a ha => hcls ▸ hle a ha mp mem_cons_self)]
        intro a ha
        exact mem_append_left _ (mem_of_getLast? ha)
      · rw [if_neg hmp, hlast]
        cases hlane : lane st.msg (st.msg mp).bBand post with
        | nil =>
          rw [hlane, getLast?_concat] at hlast
          exact absurd hlast hmp
        | cons a rest => simp [getLast?_append, getLast?_cons]

theorem getq_shape (h : Shape st.links st.msg st.q.bandp (mp :: post)) :
    Shape (st.links.unlinkFirst mp) st.msg (getqEnds st mp).bandp post := by
  have hok := h.ok mp (.head _)
  have h' : Shape st.links st.msg st.q.bandp ([] ++ mp :: post) := h
  refine h'.removed h.spells.unlinkFirst ?_ getqEnds_sameFlows.length
  rw [nil_append, getqEnds]
  split_ifs with hband
  · have hzero : ∀ pri, 0 < pri → pri ≤ st.q.bandp.length →
        lane st.msg pri ([] ++ mp :: post) = lane st.msg pri ([] ++ post) :=
      lane_insert_zero h.nband hband
    exact h.ends.same fun pri hpri hle => (hzero pri hpri hle).symm
  · obtain ⟨qbp, hqbp⟩ := band_eq_some hok hband
    have hcls := cls_of_band hok hband
    have hpos := Nat.pos_of_ne_zero hband
    obtain ⟨hfirst, hlast⟩ := h.ends _ qbp hpos hqbp
    obtain ⟨hnext, -⟩ := h.spells.links [] mp post rfl
    obtain ⟨hle, hsorted⟩ := pairwise_cons.mp h.sorted
    have hnodup := h.spells.nodup
    have hlane : lane st.msg (st.msg mp).bBand ([] ++ mp :: post) =
        lane st.msg (st.msg mp).bBand [] ++ mp :: lane st.msg (st.msg mp).bBand post :=
      lane_insert_eq hcls
    change lane st.msg (st.msg mp).bBand (mp :: post) = mp :: lane st.msg (st.msg mp).bBand post at hlane
    rw [hlane] at hfirst hlast
    have hne : ∀ c, c ≠ (st.msg mp).bBand → c ≤ st.q.bandp.length →
        lane st.msg c post = lane st.msg c (mp :: post) := fun c hc _ => by
      have hskip : lane st.msg c ([] ++ mp :: post) = lane st.msg c ([] ++ post) :=
        lane_insert_ne (hcls ▸ hc.symm)
      exact hskip.symm
    have hhead := lane_head hsorted fun a ha => hcls ▸ hle a ha
    rw [hqbp]
    cases hpost : lane st.msg (st.msg mp).bBand post with
    | nil =>
      rw [hpost, getLast?_singleton] at hlast
      dsimp only
      rw [if_pos (by rw [hfirst, hlast]; rfl)]
      exact h.ends.set hpos hne (by rw [hpost]; rfl) (by rw [hpost]; rfl)
    | cons a rest =>
      have hin : ∀ t, (a :: rest).getLast? = some t → t ∈ post := fun t ht =>
        mem_of_mem_filter (hpost ▸ mem_of_getLast? ht)
      rw [hpost, getLast?_cons_cons] at hlast
      have hcond : ¬ qbp.qbFirst = qbp.qbLast := by
        rw [hfirst, hlast, head?_cons]
        intro heq
        grind
      dsimp only
      rw [if_neg hcond]
      refine h.ends.set hpos hne ?_ (by rw [hpost]; exact hlast)
      rw [hpost] at hhead
      rw [hnext, hpost, hhead]
      rw [head?_cons, eq_comm, filter_eq_some_iff] at hhead
      rw [hhead.1, filter_some, if_pos hhead.2]

end

end Svr42.Strm
