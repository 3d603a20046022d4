import Svr42.SegModel

/-! The segments of an address space stay a ring in the order of their addresses, apart from each
other, and `as_segat` finds the one that has an address wherever it starts. -/

namespace Svr42.Seg
open Function List Nat Option Prod

variable {Ptr : Type} {s t : As Ptr} {kernel : Bool} {cells front back : List Ptr}
  {seg new p q : Ptr} {addr base size len eaddr fuel : Nat}

/-- What holds of an address space whose segments are `cells`, from the head on. -/
structure Good (kernel : Bool) (s : As Ptr) (cells : List Ptr) : Prop where
  head : s.aSegs = cells.head?
  circle : Circle s.sNext s.sPrev cells
  sorted : cells.Pairwise fun p q => s.sBase p + s.sSize p ≤ s.sBase q
  fits : ∀ p ∈ cells, s.sBase p + s.sSize p < word
  aligned : ∀ p ∈ cells, s.sBase p % 0x1000 = 0 ∧ s.sSize p % 0x1000 = 0
  user : kernel = false → ∀ p ∈ cells, 0 < s.sSize p ∧ s.sBase p + s.sSize p ≤ uVEND
  used : ∀ p ∈ cells, s.used p = true
  hint : ∀ p, s.aSeglast = some p → p ∈ cells

variable {a b : Nat}

theorem add_eq (h : a + b < word) : add a b = a + b := mod_eq_of_lt h

theorem sub_eq (h : b ≤ a) (ha : a < word) : sub a b = a - b := by
  unfold sub word at *
  omega

theorem add_lt : add a b < word := mod_lt _ (by decide)

theorem Good.sEnd_eq (h : Good kernel s cells) (hp : p ∈ cells) : s.sEnd p = s.sBase p + s.sSize p :=
  add_eq (h.fits p hp)

theorem Good.around (h : Good kernel s (front ++ seg :: back)) :
    (∀ p ∈ front, s.sBase p + s.sSize p ≤ s.sBase seg) ∧
      ∀ p ∈ back, s.sBase seg + s.sSize seg ≤ s.sBase p := by
  have hsorted := pairwise_append.mp h.sorted
  exact ⟨fun p hp => hsorted.2.2 p hp seg (.head _), (pairwise_cons.mp hsorted.2.1).1⟩

theorem Good.apart (h : Good kernel s cells) (hp : p ∈ cells) (hq : q ∈ cells) (hne : p ≠ q) :
    s.sBase p + s.sSize p ≤ s.sBase q ∨ s.sBase q + s.sSize q ≤ s.sBase p := by
  obtain ⟨front, back, rfl⟩ := append_of_mem hp
  rcases mem_append.mp hq with hfront | hback
  · exact .inr (h.around.1 q hfront)
  · rcases mem_cons.mp hback with heq | hback
    · exact absurd heq.symm hne
    · exact .inl (h.around.2 q hback)

/-! ### `as_segat` -/

section Segat

variable [DecidableEq Ptr]

theorem segatLoop_eq {sseg : Ptr} {rest : List Ptr} (hway : Arc s.sNext s.sPrev seg rest sseg)
    (hsseg : sseg ∉ rest) (hfuel : rest.length < fuel) :
    segatLoop s addr sseg fuel seg = (seg :: rest).find? fun p => Contains s addr p := by
  induction rest generalizing seg fuel with
  | nil =>
    obtain ⟨fuel, rfl⟩ : ∃ n, fuel = n + 1 := ⟨fuel - 1, by omega⟩
    rw [segatLoop, find?_cons]
    by_cases hhere : Contains s addr seg
    · rw [decide_eq_true hhere, if_pos hhere]
    · rw [decide_eq_false hhere, if_neg hhere, if_pos hway.1]
      rfl
  | cons c rest ih =>
    obtain ⟨fuel, rfl⟩ : ∃ n, fuel = n + 1 := ⟨fuel - 1, by omega⟩
    rw [length_cons] at hfuel
    have hc : c ≠ sseg := fun heq => hsseg (heq ▸ (.head _))
    rw [segatLoop, find?_cons]
    by_cases hhere : Contains s addr seg
    · rw [decide_eq_true hhere, if_pos hhere]
    · rw [decide_eq_false hhere, if_neg hhere, hway.1.1, if_neg hc,
        ih hway.2 (fun hmem => hsseg (.tail c hmem)) (by omega)]

section

variable [Fintype Ptr] (h : Good kernel s cells)
include h

omit [DecidableEq Ptr] in
theorem Good.length_le : cells.length ≤ Fintype.card Ptr :=
  h.circle.nodup.length_le_card

/-- From any segment the search finds the one that has the address, if there is one. -/
theorem Good.search (hseg : seg ∈ cells) :
    segatLoop s addr seg (Fintype.card Ptr) seg = some p ↔ p ∈ cells ∧ Contains s addr p := by
  obtain ⟨front, back, rfl⟩ := append_of_mem hseg
  have hring := h.circle.seen
  have hlength := h.length_le
  have hperm : (seg :: (back ++ front)).Perm (front ++ seg :: back) :=
    (List.Perm.cons seg perm_append_comm).trans perm_middle.symm
  rw [segatLoop_eq hring.arc (nodup_cons.mp hring.nodup).1 (by
    rw [length_append, length_cons] at hlength
    rw [length_append]
    omega)]
  constructor
  · intro hfind
    have hfound := find?_some hfind
    exact ⟨hperm.mem_iff.mp (mem_of_find?_eq_some hfind), of_decide_eq_true hfound⟩
  · rintro ⟨hp, hhas⟩
    cases hfind : (seg :: (back ++ front)).find? fun p => Contains s addr p with
    | none =>
      have hnone := find?_eq_none.mp hfind p (hperm.mem_iff.mpr hp)
      exact absurd (decide_eq_true hhas) hnone
    | some q =>
      have hq := hperm.mem_iff.mp (mem_of_find?_eq_some hfind)
      have hfound := find?_some hfind
      have hhas' : Contains s addr q := of_decide_eq_true hfound
      by_contra hne
      have hpq : p ≠ q := fun heq => hne (by rw [heq])
      have hapart := h.apart hp hq hpq
      unfold Contains at hhas hhas'
      rw [h.sEnd_eq hp] at hhas
      rw [h.sEnd_eq hq] at hhas'
      omega

omit [DecidableEq Ptr] [Fintype Ptr] in
/-- The hint may be any segment, or none. -/
theorem Good.setHint {hint : Option Ptr} (hhint : ∀ p, hint = some p → p ∈ cells) :
    Good kernel { s with aSeglast := hint } cells :=
  ⟨h.head, h.circle, h.sorted, h.fits, h.aligned, h.user, h.used, hhint⟩

omit [Fintype Ptr] in
omit [DecidableEq Ptr] in
theorem Good.withHint : Good kernel (withHint s) cells := by
  unfold Seg.withHint
  split_ifs with hnone
  · exact h.setHint fun p hp => mem_of_mem_head? (h.head ▸ hp)
  · exact h

theorem Good.segat : (∀ p, (asSegat s addr).1 = some p ↔
      p ∈ cells ∧ s.sBase p ≤ addr ∧ addr < s.sBase p + s.sSize p) ∧
    Good kernel (asSegat s addr).2 cells := by
  have hhint := h.withHint
  have hcontains : ∀ p, p ∈ cells ∧ Contains (Seg.withHint s) addr p ↔
      p ∈ cells ∧ s.sBase p ≤ addr ∧ addr < s.sBase p + s.sSize p := by
    intro p
    refine and_congr_right fun hp => ?_
    rw [← h.sEnd_eq hp]
    unfold Seg.withHint
    split
    · exact .rfl
    · exact .rfl
  unfold asSegat
  rcases eq_none_or_eq_some (Seg.withHint s).aSeglast with hnone | ⟨sseg, hsome⟩
  · -- nothing is mapped
    simp only [hnone]
    refine ⟨fun p => ?_, hhint⟩
    have hempty : cells = [] := by
      unfold Seg.withHint at hnone
      split_ifs at hnone with hlast
      · rw [h.head] at hnone
        exact head?_eq_none_iff.mp hnone
      · exact absurd hnone hlast
    rw [hempty]
    simp
  · have hfind : ∀ p, segatLoop (Seg.withHint s) addr sseg (Fintype.card Ptr) sseg = some p ↔
        p ∈ cells ∧ s.sBase p ≤ addr ∧ addr < s.sBase p + s.sSize p :=
      fun p => (hhint.search (hhint.hint sseg hsome)).trans (hcontains p)
    simp only [hsome]
    cases hseg : segatLoop (Seg.withHint s) addr sseg (Fintype.card Ptr) sseg with
    | none =>
      simp only [hseg] at hfind
      exact ⟨hfind, hhint⟩
    | some seg =>
      simp only [hseg] at hfind
      have hmem := ((hfind seg).mp rfl).1
      exact ⟨hfind, hhint.setHint fun p hp => some.inj hp ▸ hmem⟩

end

/-! ### `as_addseg` -/

variable {head : Ptr}

omit [DecidableEq Ptr] in
/-- The segment behind one that is not the last is not the head. -/
theorem Good.next_eq (h : Good kernel s (front ++ seg :: back)) (hhead : s.aSegs = some head) :
    (s.sNext seg = head ∧ back = []) ∨ ∃ c rest, back = c :: rest ∧ s.sNext seg = c ∧ c ≠ head :=
  h.circle.next_cases (h.head.symm.trans hhead)

section

variable (h : Good kernel s cells) (hhead : s.aSegs = some head)
  (hsplit : cells = front ++ seg :: back)
include h hhead hsplit

theorem findPlace_some (hfront : ∀ p ∈ front, s.sBase p + s.sSize p ≤ base)
    (hplace : findPlace s base eaddr head fuel seg = some q) :
    ∃ front' back', cells = front' ++ back' ∧ (∀ p ∈ front', s.sBase p + s.sSize p ≤ base) ∧
      (∀ p ∈ back', base < s.sBase p ∧ eaddr ≤ s.sBase p) ∧ (back' ++ front').head? = some q := by
  induction fuel generalizing seg front back with
  | zero => cases hplace
  | succ fuel ih =>
    have hmem : seg ∈ cells := by
      rw [hsplit]
      simp
    have hgood := h
    rw [hsplit] at hgood
    rw [findPlace] at hplace
    by_cases hlow : base < s.sBase seg
    · rw [if_pos hlow] at hplace
      by_cases hover : s.sBase seg < eaddr
      · rw [if_pos hover] at hplace
        cases hplace
      rw [if_neg hover] at hplace
      refine ⟨front, seg :: back, hsplit, hfront, fun p hp => ?_, hplace⟩
      rcases mem_cons.mp hp with heq | hback
      · rw [heq]
        exact ⟨hlow, not_lt.mp hover⟩
      · have hafter := hgood.around.2 p hback
        omega
    · rw [if_neg hlow, h.sEnd_eq hmem] at hplace
      by_cases hin : base < s.sBase seg + s.sSize seg
      · rw [if_pos hin] at hplace
        cases hplace
      rw [if_neg hin] at hplace
      have hfront' : ∀ p ∈ front ++ [seg], s.sBase p + s.sSize p ≤ base := by
        intro p hp
        rcases mem_append.mp hp with hold | hnew
        · exact hfront p hold
        · rw [mem_singleton.mp hnew]
          exact not_lt.mp hin
      rcases hgood.next_eq hhead with ⟨hnext, hnil⟩ | ⟨c, rest, hback, hnext, hne⟩
      · -- the search has come round
        rw [if_pos hnext] at hplace
        refine ⟨front ++ [seg], [], by rw [hsplit, hnil, append_nil], hfront', nofun, ?_⟩
        rw [← hplace, ← hhead, h.head, hsplit, hnil]
        rfl
      · rw [hnext, if_neg hne] at hplace
        exact ih (by rw [hsplit, hback, append_assoc, singleton_append]) hfront' hplace

/-- A place is found for a segment that overlaps none. -/
theorem findPlace_total (hfuel : back.length < fuel) (hsize : base < eaddr)
    (hfree : ∀ p ∈ cells, s.sBase p + s.sSize p ≤ base ∨ eaddr ≤ s.sBase p) :
    ∃ q, findPlace s base eaddr head fuel seg = some q := by
  induction fuel generalizing seg front back with
  | zero => exact absurd hfuel (not_lt_zero _)
  | succ fuel ih =>
    have hmem : seg ∈ cells := by
      rw [hsplit]
      simp
    have hgood := h
    rw [hsplit] at hgood
    have hseg := hfree seg hmem
    rw [findPlace]
    by_cases hlow : base < s.sBase seg
    · have hover : ¬ s.sBase seg < eaddr := by omega
      rw [if_pos hlow, if_neg hover]
      exact ⟨seg, rfl⟩
    have hin : ¬ base < s.sEnd seg := by
      rw [h.sEnd_eq hmem]
      omega
    rw [if_neg hlow, if_neg hin]
    rcases hgood.next_eq hhead with ⟨hnext, -⟩ | ⟨c, rest, hback, hnext, hne⟩
    · rw [if_pos hnext]
      exact ⟨head, rfl⟩
    rw [hnext, if_neg hne]
    rw [hback, length_cons] at hfuel
    have hsplit' : cells = (front ++ [seg]) ++ c :: rest := by
      rw [hsplit, hback, append_assoc, singleton_append]
    exact ih hsplit' (by omega)

end

/-- What a segment needs to be added. -/
structure Fresh (kernel : Bool) (s : As Ptr) (cells : List Ptr) (new : Ptr) : Prop where
  off : new ∉ cells
  fits : s.sBase new + s.sSize new < word
  aligned : s.sBase new % 0x1000 = 0 ∧ s.sSize new % 0x1000 = 0
  user : kernel = false → 0 < s.sSize new ∧ s.sBase new + s.sSize new ≤ uVEND
  used : s.used new = true

section

variable [Fintype Ptr] (h : Good kernel s cells) (hnew : Fresh kernel s cells new)
include h hnew

theorem asAddseg_ok (hadd : asAddseg s new = some t) :
    ∃ front back, cells = front ++ back ∧ Good kernel t (front ++ new :: back) ∧ t.sBase = s.sBase := by
  have headdr : s.sEnd new = s.sBase new + s.sSize new := add_eq hnew.fits
  -- what does not depend on where the segment is put
  have hall : ∀ {P : Ptr → Prop} {front back : List Ptr}, cells = front ++ back →
      (∀ p ∈ cells, P p) → P new → ∀ p ∈ front ++ new :: back, P p := by
    intro P front back hcells hold hp p hmem
    rcases mem_append.mp hmem with hfront | hback
    · exact hold p (hcells ▸ mem_append_left _ hfront)
    rcases mem_cons.mp hback with heq | hback
    · rw [heq]
      exact hp
    · exact hold p (hcells ▸ mem_append_right _ hback)
  unfold asAddseg at hadd
  cases hhead : s.aSegs with
  | none =>
    have hempty : cells = [] := head?_eq_none_iff.mp (h.head.symm.trans hhead)
    rw [hhead] at hadd
    rw [← some.inj hadd]
    refine ⟨[], [], hempty, ⟨rfl, ?_, pairwise_singleton _ _, ?_, ?_, ?_, ?_, ?_⟩, rfl⟩
    · exact ⟨⟨update_self _ _ _, update_self _ _ _⟩, nodup_singleton new⟩
    · exact hall hempty h.fits hnew.fits
    · exact hall hempty h.aligned hnew.aligned
    · exact fun huser => hall hempty (h.user huser) (hnew.user huser)
    · exact hall hempty h.used hnew.used
    · intro p hp
      have hmem := h.hint p hp
      rw [hempty] at hmem
      cases hmem
  | some head =>
    rw [hhead] at hadd
    simp only at hadd
    cases hplace : findPlace s (s.sBase new) (s.sEnd new) head (Fintype.card Ptr) head with
    | none =>
      rw [hplace] at hadd
      cases hadd
    | some q =>
      rw [hplace] at hadd
      rw [← some.inj hadd]
      obtain ⟨rest, hrest⟩ := head?_eq_some_iff.mp (h.head.symm.trans hhead)
      rw [headdr] at hplace
      obtain ⟨front, back, hcells, hfront, hback, hq⟩ := findPlace_some h hhead
        (show cells = [] ++ head :: rest from hrest)
        nofun hplace
      have hoff := hnew.off
      have hcircle := h.circle
      rw [hcells] at hoff hcircle
      refine ⟨front, back, hcells, ⟨?_, hcircle.insert hoff hq, ?_, ?_, ?_, ?_, ?_, ?_⟩, rfl⟩
      · -- it is the head when all others come behind it
        rw [hcells] at hrest
        cases front with
        | nil =>
          have hlow := (hback head (by
            rw [show back = head :: rest from hrest]
            exact (.head _))).1
          rw [if_pos hlow]
          rfl
        | cons x front =>
          have hx : x = head := (cons.inj hrest).1
          have hle := hfront x (.head _)
          rw [hx] at hle ⊢
          rw [if_neg (by omega)]
          rfl
      · have hsorted := h.sorted
        rw [hcells] at hsorted
        have hsplit := pairwise_append.mp hsorted
        refine pairwise_append.mpr ⟨hsplit.1, pairwise_cons.mpr
          ⟨fun p hp => (hback p hp).2, hsplit.2.1⟩, fun p hp r hr => ?_⟩
        rcases mem_cons.mp hr with heq | hmem
        · rw [heq]
          exact hfront p hp
        · exact hsplit.2.2 p hp r hmem
      · exact hall hcells h.fits hnew.fits
      · exact hall hcells h.aligned hnew.aligned
      · exact fun huser => hall hcells (h.user huser) (hnew.user huser)
      · exact hall hcells h.used hnew.used
      · intro p hp
        have hmem := h.hint p hp
        rw [hcells] at hmem
        rcases mem_append.mp hmem with hfront | hback
        · exact mem_append_left _ hfront
        · exact mem_append_right _ (.tail _ hback)

theorem asAddseg_total
    (hsize : 0 < s.sSize new) (hfree : ∀ p ∈ cells, s.sBase p + s.sSize p ≤ s.sBase new ∨
      s.sBase new + s.sSize new ≤ s.sBase p) : ∃ t, asAddseg s new = some t := by
  have headdr : s.sEnd new = s.sBase new + s.sSize new := add_eq hnew.fits
  unfold asAddseg
  cases hhead : s.aSegs with
  | none => exact ⟨_, rfl⟩
  | some head =>
    obtain ⟨rest, hrest⟩ := head?_eq_some_iff.mp (h.head.symm.trans hhead)
    have hlength := h.length_le
    rw [hrest, length_cons] at hlength
    have hfuel : rest.length < Fintype.card Ptr := by omega
    obtain ⟨q, hq⟩ := findPlace_total h hhead (show cells = [] ++ head :: rest from hrest)
      hfuel (by omega) hfree
    rw [headdr]
    simp only [hq]
    exact ⟨_, rfl⟩

end

/-! ### `seg_alloc` and `seg_free` -/

theorem Good.attach (h : Good kernel s cells) (hnew : new ∉ cells) :
    Good kernel (attached s new base size) cells := by
  have hbase : ∀ p ∈ cells, update s.sBase new base p = s.sBase p :=
    fun p hp => update_of_ne (ne_of_mem_of_not_mem hp hnew) _ _
  have hsize : ∀ p ∈ cells, update s.sSize new size p = s.sSize p :=
    fun p hp => update_of_ne (ne_of_mem_of_not_mem hp hnew) _ _
  refine ⟨h.head, h.circle, ?_, fun p hp => ?_, fun p hp => ?_, fun huser p hp => ?_,
    fun p hp => ?_, h.hint⟩
  · refine h.sorted.imp_of_mem fun {p q} hp hq hle => ?_
    change update s.sBase new base p + update s.sSize new size p ≤ update s.sBase new base q
    rw [hbase p hp, hsize p hp, hbase q hq]
    exact hle
  · change update s.sBase new base p + update s.sSize new size p < word
    rw [hbase p hp, hsize p hp]
    exact h.fits p hp
  · change update s.sBase new base p % _ = 0 ∧ update s.sSize new size p % _ = 0
    rw [hbase p hp, hsize p hp]
    exact h.aligned p hp
  · change 0 < update s.sSize new size p ∧ update s.sBase new base p + update s.sSize new size p ≤ uVEND
    rw [hbase p hp, hsize p hp]
    exact h.user huser p hp
  · change update s.used new true p = true
    rw [update_of_ne (ne_of_mem_of_not_mem hp hnew)]
    exact h.used p hp

theorem attached_base : (attached s new base size).sBase new = base := update_self _ _ _

theorem attached_size : (attached s new base size).sSize new = size := update_self _ _ _

theorem range_ok {segbase segsize : Nat} (hsegbase : segbase = pageMask base)
    (hsegsize : segsize = sub (pageRound (add base size)) segbase)
    (hvalid : validVaRange segbase segsize segsize) :
    segbase + segsize < word ∧ segbase % 0x1000 = 0 ∧ segsize % 0x1000 = 0 := by
  have hlt : segsize < word := by
    rw [hsegsize]
    exact mod_lt _ (by decide)
  refine ⟨?_, ?_, ?_⟩
  · by_contra hge
    refine hvalid.1 ?_
    unfold add
    unfold pageMask word at *
    omega
  · unfold pageMask at hsegbase
    omega
  · unfold sub pageRound pageMask word at *
    omega

theorem segAlloc_ok [Fintype Ptr] (h : Good kernel s cells) (halloc : segAlloc kernel s new base size = some t) :
    ∃ front back, cells = front ++ back ∧ Good kernel t (front ++ new :: back) ∧
      t.sBase = update s.sBase new (pageMask base) := by
  unfold segAlloc at halloc
  dsimp only at halloc
  split at halloc
  · cases halloc
  · rename_i hvalid
    split at halloc
    · cases halloc
    · rename_i huser
      split at halloc
      · cases halloc
      · rename_i hused
        have hoff : new ∉ cells := fun hmem => hused (h.used new hmem)
        have hrange := range_ok rfl rfl (not_not.mp hvalid)
        have hfresh : Fresh kernel (attached s new (pageMask base)
            (sub (pageRound (add base size)) (pageMask base))) cells new := by
          refine ⟨hoff, ?_, ?_, fun hkernel => ?_, update_self _ _ _⟩
          · rw [attached_base, attached_size]
            exact hrange.1
          · rw [attached_base, attached_size]
            exact hrange.2
          · rw [attached_base, attached_size]
            have hvalid' := not_not.mp fun hnot => huser ⟨hkernel, hnot⟩
            unfold validUsrRange at hvalid'
            rw [add_eq hrange.1] at hvalid'
            omega
        obtain ⟨front, back, hcells, hgood, hbases⟩ := asAddseg_ok (h.attach hoff) hfresh halloc
        exact ⟨front, back, hcells, hgood, hbases⟩

section

variable (h : Good kernel s (front ++ seg :: back))
include h

omit [DecidableEq Ptr] in
theorem alone_iff : alone s seg ↔ front ++ back = [] := by
  constructor
  · rintro ⟨-, hnext⟩
    exact h.circle.alone.mp hnext
  · intro hempty
    refine ⟨?_, h.circle.alone.mpr hempty⟩
    rw [h.head, (append_eq_nil_iff.mp hempty).1]
    rfl

theorem headWithout_eq : headWithout s seg = (front ++ back).head? := by
  unfold headWithout
  by_cases halone : alone s seg
  · rw [if_pos halone, (alone_iff h).mp halone]
    rfl
  rw [if_neg halone]
  cases front with
  | nil =>
    have hback : back ≠ [] := fun hnil => halone ((alone_iff h).mpr hnil)
    obtain ⟨c, rest, rfl⟩ := exists_cons_of_ne_nil hback
    rw [if_pos (show s.aSegs = some seg from h.head), h.circle.next_eq]
    rfl
  | cons x front =>
    have hx : x ≠ seg := by
      rintro rfl
      exact (nodup_cons.mp h.circle.nodup).1 (by simp)
    have hhead : s.aSegs = some x := h.head
    rw [if_neg (by rw [hhead]; exact fun heq => hx (some.inj heq)), hhead]
    rfl

theorem segFree_ok : Good kernel (segFree s seg) (front ++ back) := by
  have hsub : (front ++ back).Sublist (front ++ seg :: back) :=
    (List.Sublist.refl front).append (sublist_cons_self seg back)
  have hnodup := h.circle.nodup
  rw [perm_middle.nodup_iff, nodup_cons] at hnodup
  refine ⟨headWithout_eq h, ?_, h.sorted.sublist hsub, fun p hp => h.fits p (hsub.mem hp),
    fun p hp => h.aligned p (hsub.mem hp), fun huser p hp => h.user huser p (hsub.mem hp),
    fun p hp => ?_, fun p hp => ?_⟩
  · change Circle (if alone s seg then _ else _) (if alone s seg then _ else _) _
    by_cases halone : alone s seg
    · rw [(alone_iff h).mp halone]
      trivial
    · rw [if_neg halone, if_neg halone]
      exact h.circle.remove fun hempty => halone ((alone_iff h).mpr hempty)
  · change update s.used seg false p = true
    rw [update_of_ne (ne_of_mem_of_not_mem hp hnodup.1)]
    exact h.used p (hsub.mem hp)
  · change (if s.aSeglast = some seg then headWithout s seg else s.aSeglast) = some p at hp
    split_ifs at hp with hlast
    · rw [headWithout_eq h] at hp
      exact mem_of_mem_head? hp
    · have hne : p ≠ seg := fun heq => hlast (heq ▸ hp)
      have hmem := perm_middle.mem_iff.mp (h.hint p hp)
      exact (mem_cons.mp hmem).resolve_left hne

/-- A segment that changes within the room between its neighbours. -/
theorem Good.resize {z : Nat} (hfront : ∀ p ∈ front, s.sBase p + s.sSize p ≤ b)
    (hback : ∀ p ∈ back, b + z ≤ s.sBase p) (hfits : b + z < word)
    (haligned : b % 0x1000 = 0 ∧ z % 0x1000 = 0) (huser : kernel = false → 0 < z ∧ b + z ≤ uVEND) :
    Good kernel { s with
      sBase := update s.sBase seg b
      sSize := update s.sSize seg z } (front ++ seg :: back) := by
  have hnodup := h.circle.nodup
  rw [perm_middle.nodup_iff, nodup_cons] at hnodup
  have hother : ∀ p ∈ front ++ back, update s.sBase seg b p = s.sBase p ∧
      update s.sSize seg z p = s.sSize p := by
    intro p hp
    have hne := ne_of_mem_of_not_mem hp hnodup.1
    exact ⟨update_of_ne hne _ _, update_of_ne hne _ _⟩
  -- what holds of the segment as it is now and of the others as they were
  have hall : ∀ {P : Nat → Nat → Prop}, (∀ p ∈ front ++ seg :: back, P (s.sBase p) (s.sSize p)) →
      P b z → ∀ p ∈ front ++ seg :: back, P (update s.sBase seg b p) (update s.sSize seg z p) := by
    intro P hold hseg p hp
    rcases mem_cons.mp (perm_middle.mem_iff.mp hp) with heq | hmem
    · rw [heq, update_self, update_self]
      exact hseg
    · rw [(hother p hmem).1, (hother p hmem).2]
      exact hold p hp
  refine ⟨h.head, h.circle, ?_, hall (P := fun b z => b + z < word) h.fits hfits,
    hall (P := fun b z => b % 0x1000 = 0 ∧ z % 0x1000 = 0) h.aligned haligned,
    fun hkernel => hall (P := fun b z => 0 < z ∧ b + z ≤ uVEND) (h.user hkernel) (huser hkernel),
    h.used, h.hint⟩
  have hsplit := pairwise_append.mp h.sorted
  have hin : ∀ p ∈ front, p ∈ front ++ back := fun p hp => mem_append_left _ hp
  have hin' : ∀ p ∈ back, p ∈ front ++ back := fun p hp => mem_append_right _ hp
  refine pairwise_append.mpr ⟨hsplit.1.imp_of_mem fun {p q} hp hq hle => ?_,
    pairwise_cons.mpr ⟨fun p hp => ?_,
      (pairwise_cons.mp hsplit.2.1).2.imp_of_mem fun {p q} hp hq hle => ?_⟩,
    fun p hp q hq => ?_⟩
  · change update s.sBase seg b p + update s.sSize seg z p ≤ update s.sBase seg b q
    rw [(hother p (hin p hp)).1, (hother p (hin p hp)).2, (hother q (hin q hq)).1]
    exact hle
  · change update s.sBase seg b seg + update s.sSize seg z seg ≤ update s.sBase seg b p
    rw [update_self, update_self, (hother p (hin' p hp)).1]
    exact hback p hp
  · change update s.sBase seg b p + update s.sSize seg z p ≤ update s.sBase seg b q
    rw [(hother p (hin' p hp)).1, (hother p (hin' p hp)).2, (hother q (hin' q hq)).1]
    exact hle
  · change update s.sBase seg b p + update s.sSize seg z p ≤ update s.sBase seg b q
    rw [(hother p (hin p hp)).1, (hother p (hin p hp)).2]
    rcases mem_cons.mp hq with heq | hmem
    · rw [heq, update_self]
      exact hfront p hp
    · rw [(hother q (hin' q hmem)).1]
      exact hsplit.2.2 p hp q (.tail seg hmem)

end

/-! ### What the drivers do -/

section

variable (h : Good kernel s cells) (hkernel : kernel = false) (hp : p ∈ cells) (hq : q ∈ cells)
  (htouch : s.sEnd p = s.sBase q)
include h hkernel hp hq htouch

/-- Two segments that touch are neighbours. -/
theorem Good.touching : ∃ front back, cells = front ++ p :: q :: back := by
  rw [h.sEnd_eq hp] at htouch
  have huser := h.user hkernel
  have hpq : p ≠ q := by
    rintro rfl
    have hpos := (huser p hp).1
    omega
  obtain ⟨front, back, rfl⟩ := append_of_mem hq
  -- the first segment is the last one before the second
  have hfront : p ∈ front := by
    rcases mem_append.mp hp with hfront | hback
    · exact hfront
    · have hafter := h.around.2 p ((mem_cons.mp hback).resolve_left hpq)
      have hpos := (huser q hq).1
      omega
  obtain ⟨f, b, rfl⟩ := append_of_mem hfront
  cases b with
  | nil => exact ⟨f, back, by simp⟩
  | cons x b =>
    have hgood := h
    rw [append_assoc, cons_append] at hgood
    have hbefore := h.around.1 x (by simp)
    have hafter := hgood.around.2 x (by simp)
    have hpos := (huser x (by simp)).1
    omega

/-- The first of two segments that touch can take the second one in. -/
theorem mergePrev_ok :
    ∃ front back, cells = front ++ q :: back ∧ Good kernel (mergePrev s p q) (front ++ back) := by
  obtain ⟨f, b, rfl⟩ := h.touching hkernel hp hq htouch
  rw [h.sEnd_eq hp] at htouch
  have hq_user := h.user hkernel q hq
  have hp_aligned := h.aligned p hp
  have hq_aligned := h.aligned q hq
  have hq_fits := h.fits q hq
  have hsum : add (s.sSize p) (s.sSize q) = s.sSize p + s.sSize q := add_eq (by omega)
  rw [← singleton_append, ← append_assoc] at h
  have hfree := segFree_ok h
  have haround := h.around
  refine ⟨f ++ [p], b, by simp, ?_⟩
  rw [append_assoc, singleton_append] at hfree ⊢
  have hresize := hfree.resize (b := s.sBase p) (z := s.sSize p + s.sSize q)
    (fun x hx => hfree.around.1 x hx) (fun x hx => by
      have hafter : s.sBase q + s.sSize q ≤ s.sBase x := haround.2 x hx
      change _ ≤ s.sBase x
      omega) (by omega) (by omega) fun _ => by omega
  unfold mergePrev
  rw [hsum]
  have hbase : update (segFree s q).sBase p (s.sBase p) = (segFree s q).sBase := update_eq_self _ _
  rw [hbase] at hresize
  exact hresize

/-- The second one can take the first one in, too. -/
theorem mergeNext_ok :
    ∃ front back, cells = front ++ p :: back ∧ Good kernel (mergeNext s p q) (front ++ back) := by
  obtain ⟨f, b, rfl⟩ := h.touching hkernel hp hq htouch
  rw [h.sEnd_eq hp] at htouch
  have hq_user := h.user hkernel q hq
  have hp_aligned := h.aligned p hp
  have hq_aligned := h.aligned q hq
  have hq_fits := h.fits q hq
  have hsum : add (s.sSize q) (s.sSize p) = s.sSize q + s.sSize p := add_eq (by omega)
  have hdiff : sub (s.sBase q) (s.sSize p) = s.sBase p := by
    rw [sub_eq (by omega) (by omega)]
    omega
  have hfree := segFree_ok h
  refine ⟨f, q :: b, rfl, ?_⟩
  have hresize := hfree.resize (b := s.sBase p) (z := s.sSize q + s.sSize p)
    (fun x hx => h.around.1 x hx) (fun x hx => by
      have hafter : s.sBase q + s.sSize q ≤ s.sBase x := hfree.around.2 x hx
      change _ ≤ s.sBase x
      omega) (by omega) (by omega) fun _ => by omega
  unfold mergeNext
  rw [hsum, hdiff]
  exact hresize

end

variable {create : Create}

theorem segCreate_ok (h : Good kernel s cells) (hseg : seg ∈ cells) :
    ∃ cells', Good kernel (segCreate kernel s seg create) cells' := by
  unfold segCreate
  cases create with
  | fails =>
    obtain ⟨front, back, rfl⟩ := append_of_mem hseg
    exact ⟨_, segFree_ok h⟩
  | stays => exact ⟨cells, h⟩
  | extendPrev concat =>
    dsimp only
    split
    · rename_i htouch
      have hpseg := h.circle.prev_mem hseg
      obtain ⟨front, back, rfl, hmerge⟩ := mergePrev_ok h htouch.2.1 hpseg hseg htouch.2.2
      split
      · unfold concatNext
        dsimp only
        split
        · rename_i hnext
          have hpseg' : s.sPrev seg ∈ front ++ back :=
            (mem_cons.mp (perm_middle.mem_iff.mp hpseg)).resolve_left htouch.1
          obtain ⟨front', back', -, hconcat⟩ := mergePrev_ok hmerge htouch.2.1 hpseg'
            (hmerge.circle.next_mem hpseg') hnext.2
          exact ⟨_, hconcat⟩
        · exact ⟨_, hmerge⟩
      · exact ⟨_, hmerge⟩
    · exact ⟨cells, h⟩
  | extendNext =>
    dsimp only
    split
    · rename_i htouch
      obtain ⟨front, back, -, hmerge⟩ := mergeNext_ok h htouch.2.1 hseg
        (h.circle.next_mem hseg) htouch.2.2
      exact ⟨_, hmerge⟩
    · exact ⟨cells, h⟩

theorem asMap_ok [Fintype Ptr] (h : Good kernel s cells)
    (hmap : asMap kernel s new addr size create = some t) : ∃ cells', Good kernel t cells' := by
  obtain ⟨u, halloc, hu⟩ := map_eq_some_iff.mp hmap
  obtain ⟨front, back, -, hgood, -⟩ := segAlloc_ok h halloc
  have hnew : new ∈ front ++ new :: back := by simp
  have hhint : Good kernel { u with aSeglast := some new } (front ++ new :: back) := by
    refine hgood.setHint fun p hp => ?_
    rw [← some.inj hp]
    exact hnew
  rw [← hu]
  exact segCreate_ok hhint hnew

/-! ### `as_unmap` -/

/-- A segment cut down at its low or at its high end. -/
theorem Good.cut (h : Good kernel s (front ++ seg :: back)) {z : Nat} (hlow : s.sBase seg ≤ b)
    (hhigh : b + z ≤ s.sBase seg + s.sSize seg) (haligned : b % 0x1000 = 0 ∧ z % 0x1000 = 0)
    (hpos : 0 < z) : Good kernel { s with
      sBase := update s.sBase seg b
      sSize := update s.sSize seg z } (front ++ seg :: back) := by
  have hseg : seg ∈ front ++ seg :: back := by simp
  have haround := h.around
  have hfits := h.fits seg hseg
  refine h.resize (fun p hp => ?_) (fun p hp => ?_) (by omega) haligned fun hkernel => ?_
  · have hbefore := haround.1 p hp
    omega
  · have hafter := haround.2 p hp
    omega
  · have huser := h.user hkernel seg hseg
    omega

theorem Good.cutHigh (h : Good kernel s (front ++ seg :: back)) {z : Nat} (hz : z ≤ s.sSize seg)
    (haligned : z % 0x1000 = 0) (hpos : 0 < z) :
    Good kernel { s with sSize := update s.sSize seg z } (front ++ seg :: back) := by
  have hseg : seg ∈ front ++ seg :: back := by simp
  have hcut := h.cut le_rfl (Nat.add_le_add_left hz _) ⟨(h.aligned seg hseg).1, haligned⟩ hpos
  rw [update_eq_self] at hcut
  exact hcut

omit [DecidableEq Ptr] in
/-- What the driver is asked to unmap: some of what is left of the segment, or, when the end of the
range has wrapped to below its beginning, a length that wraps as well. -/
theorem unmapSize_ok (h : Good kernel s cells) (hseg : seg ∈ cells)
    (hhigh : addr ≤ s.sEnd seg) (headdr : eaddr < word) :
    (addr ≤ eaddr → addr + unmapSize s seg addr eaddr = min (s.sEnd seg) eaddr) ∧
      (eaddr < addr → unmapSize s seg addr eaddr = eaddr + word - addr) := by
  rw [h.sEnd_eq hseg] at hhigh
  unfold unmapSize
  rw [h.sEnd_eq hseg]
  constructor
  · intro hle
    split
    · rw [sub_eq (by omega) (by omega)]
      omega
    · rw [sub_eq hle headdr]
      omega
  · intro hlt
    rw [if_neg (by omega)]
    unfold sub word at *
    omega

variable [Fintype Ptr]

theorem segUnmap_ok (h : Good kernel s (front ++ seg :: back)) (hlow : s.sBase seg ≤ addr)
    (hhigh : addr ≤ s.sEnd seg) (hbase : s.sBase seg < eaddr) (headdr : eaddr < word)
    (hunmap : segUnmap kernel s new seg addr (unmapSize s seg addr eaddr) = some t) :
    ∃ cells', Good kernel t cells' ∧
      (cells' = front ++ back ∨ ∀ p ∈ front ++ seg :: back, p ∈ cells') := by
  have hseg : seg ∈ front ++ seg :: back := by simp
  have hsize := unmapSize_ok h hseg hhigh headdr
  have hfits := h.fits seg hseg
  have haligned := h.aligned seg hseg
  generalize unmapSize s seg addr eaddr = len at hsize hunmap
  rw [h.sEnd_eq hseg] at hsize hhigh
  unfold segUnmap at hunmap
  rw [h.sEnd_eq hseg] at hunmap
  split at hunmap
  · cases hunmap
  · rename_i hok
    split at hunmap
    · rw [← some.inj hunmap]
      exact ⟨_, segFree_ok h, .inl rfl⟩
    · rename_i hwhole
      split at hunmap
      · -- the beginning of the segment
        rename_i hfirst
        have hlen : addr + len = min (s.sBase seg + s.sSize seg) eaddr := hsize.1 (by omega)
        rw [add_eq (by omega), sub_eq (by omega) (by omega)] at hunmap
        rw [← some.inj hunmap]
        exact ⟨_, h.cut (by omega) (by omega) (by omega) (by omega), .inr fun p hp => hp⟩
      · rename_i hfirst
        split at hunmap
        · -- its end
          rename_i hlast
          have hlen : addr + len = min (s.sBase seg + s.sSize seg) eaddr := by
            refine hsize.1 ?_
            by_contra hlt
            rw [hsize.2 (not_le.mp hlt)] at hlast
            unfold add word at hlast
            omega
          rw [add_eq (by omega)] at hlast
          rw [sub_eq (by omega) (by omega)] at hunmap
          rw [← some.inj hunmap]
          exact ⟨_, h.cutHigh (by omega) (by omega) (by omega), .inr fun p hp => hp⟩
        · -- the middle
          rw [sub_eq hlow (by omega)] at hunmap
          have hcut := h.cutHigh (z := addr - s.sBase seg) (by omega) (by omega) (by omega)
          obtain ⟨f, b, hcells, hgood, -⟩ := segAlloc_ok hcut hunmap
          refine ⟨_, hgood, .inr fun p hp => ?_⟩
          rw [hcells] at hp
          exact perm_middle.mem_iff.mpr (.tail new hp)

variable {refuses : Ptr → Bool} {raddr : Nat} {done : Bool}

theorem unmapLoop_ok (h : Good kernel s cells) (hseg : seg ∈ cells) (headdr : eaddr < word)
    (hloop : unmapLoop kernel new refuses eaddr fuel s seg raddr = some (done, t)) :
    ∃ cells', Good kernel t cells' := by
  induction fuel generalizing s seg raddr cells with
  | zero => cases hloop
  | succ fuel ih =>
    rw [unmapLoop] at hloop
    split at hloop
    · split at hloop
      · exact ih h (h.circle.next_mem hseg) hloop
      · rw [← (mk.inj (some.inj hloop)).2]
        exact ⟨cells, h⟩
    · rename_i hhigh
      split at hloop
      · rw [← (mk.inj (some.inj hloop)).2]
        exact ⟨cells, h⟩
      · rename_i hbase
        split at hloop
        · rw [← (mk.inj (some.inj hloop)).2]
          exact ⟨cells, h⟩
        · obtain ⟨u, hunmap, hrest⟩ := bind_eq_some_iff.mp hloop
          obtain ⟨front, back, rfl⟩ := append_of_mem hseg
          have hnext := h.circle.next_mem hseg
          have hfrom : s.sBase seg ≤ unmapFrom s seg raddr ∧ unmapFrom s seg raddr ≤ s.sEnd seg := by
            have hend := h.sEnd_eq hseg
            unfold unmapFrom
            split
            · omega
            · omega
          obtain ⟨cells', hgood, hcells⟩ := segUnmap_ok h hfrom.1 hfrom.2 (not_le.mp hbase) headdr hunmap
          split at hrest
          · rename_i htest
            refine ih hgood ?_ hrest
            rcases hcells with hfreed | hkept
            · rw [hfreed]
              have hne : s.sNext seg ≠ seg := by
                intro halone
                have hempty := h.circle.alone.mp halone
                rw [hgood.head, hfreed, hempty] at htest
                exact htest.1 rfl
              exact (mem_cons.mp (perm_middle.mem_iff.mp hnext)).resolve_left hne
            · exact hkept _ hnext
          · rw [← (mk.inj (some.inj hrest)).2]
            exact ⟨cells', hgood⟩

/-! ### A range that does not wrap is unmapped without a panic -/

theorem segAlloc_total (h : Good kernel s cells) (hnew : s.used new = false)
    (haligned : base % 0x1000 = 0 ∧ size % 0x1000 = 0) (hpos : 0 < size) (hfits : base + size < word)
    (huser : kernel = false → base + size ≤ uVEND)
    (hfree : ∀ p ∈ cells, s.sBase p + s.sSize p ≤ base ∨ base + size ≤ s.sBase p) :
    ∃ t, segAlloc kernel s new base size = some t := by
  have hbase : pageMask base = base := by
    unfold pageMask
    omega
  have hsize : sub (pageRound (add base size)) base = size := by
    have hroom : base + size + 0xfff < word := by
      unfold word at hfits ⊢
      omega
    have hround : pageRound (base + size) = base + size := by
      unfold pageRound pageMask
      rw [add_eq hroom]
      omega
    rw [add_eq hfits, hround, sub_eq (le_add_right _ _) hfits, Nat.add_sub_cancel_left]
  have hvalid : validVaRange base size size := by
    unfold validVaRange
    rw [add_eq hfits, sub_eq (le_add_right _ _) hfits]
    omega
  have hrange : ¬ (kernel = false ∧ ¬ validUsrRange base size) := by
    rintro ⟨hkernel, hnot⟩
    refine hnot ?_
    unfold validUsrRange
    rw [add_eq hfits]
    exact ⟨by omega, huser hkernel⟩
  have hoff : new ∉ cells := by
    intro hmem
    rw [h.used new hmem] at hnew
    cases hnew
  unfold segAlloc
  dsimp only
  rw [hbase, hsize, if_neg (not_not.mpr hvalid), if_neg hrange, if_neg (by rw [hnew]; decide)]
  refine asAddseg_total (h.attach hoff) ⟨hoff, ?_, ?_, fun hkernel => ?_, update_self _ _ _⟩
    ?_ fun p hp => ?_
  · rw [attached_base, attached_size]
    exact hfits
  · rw [attached_base, attached_size]
    exact haligned
  · rw [attached_base, attached_size]
    exact ⟨hpos, huser hkernel⟩
  · rw [attached_size]
    exact hpos
  · have hne := ne_of_mem_of_not_mem hp hoff
    rw [attached_base, attached_size]
    change update s.sBase new base p + update s.sSize new size p ≤ base ∨
      base + size ≤ update s.sBase new base p
    rw [update_of_ne hne, update_of_ne hne]
    exact hfree p hp

/-- What is left to unmap once the driver has done its part: nothing of what it has left of the
segment, and the rest of the range is still ahead. -/
structure Unmapped (kernel : Bool) (s t : As Ptr) (new seg : Ptr) (front back : List Ptr)
    (eaddr : Nat) : Prop where
  bases : ∀ p ∈ front ++ back, t.sBase p = s.sBase p
  shape : Good kernel t (front ++ back) ∧ t.used new = false ∨
    Good kernel t (front ++ seg :: back) ∧ t.used new = false ∧
      (t.sBase seg = s.sBase seg ∨ eaddr ≤ t.sBase seg) ∨
    eaddr < s.sEnd seg ∧ t.sBase seg = s.sBase seg ∧
      ∃ f b, front ++ seg :: back = f ++ b ∧ Good kernel t (f ++ new :: b) ∧ t.sBase new = eaddr

theorem segUnmap_total (h : Good kernel s (front ++ seg :: back)) (hlow : s.sBase seg ≤ addr)
    (hhigh : addr ≤ s.sEnd seg) (hle : addr ≤ eaddr) (headdr : eaddr < word)
    (haligned : addr % 0x1000 = 0 ∧ eaddr % 0x1000 = 0) (hnew : s.used new = false) (hne : new ≠ seg) :
    ∃ t, segUnmap kernel s new seg addr (unmapSize s seg addr eaddr) = some t ∧
      Unmapped kernel s t new seg front back eaddr := by
  have hseg : seg ∈ front ++ seg :: back := by simp
  have hsize := (unmapSize_ok h hseg hhigh headdr).1 hle
  have hfits := h.fits seg hseg
  have hpages := h.aligned seg hseg
  have hnodup := h.circle.nodup
  rw [perm_middle.nodup_iff, nodup_cons] at hnodup
  have hother : ∀ p ∈ front ++ back, p ≠ seg := fun p hp => ne_of_mem_of_not_mem hp hnodup.1
  have hoff : new ∉ front ++ back := by
    intro hmem
    have hused := h.used new (perm_middle.mem_iff.mpr (.tail seg hmem))
    rw [hnew] at hused
    cases hused
  generalize unmapSize s seg addr eaddr = len at hsize
  rw [h.sEnd_eq hseg] at hsize hhigh
  have hok : ¬ (addr < s.sBase seg ∨ s.sBase seg + s.sSize seg < addr + len ∨ len % 0x1000 ≠ 0 ∨
      addr % 0x1000 ≠ 0) := by omega
  unfold segUnmap
  rw [h.sEnd_eq hseg, add_eq (by omega), if_neg hok]
  by_cases hwhole : addr = s.sBase seg ∧ len = s.sSize seg
  · rw [if_pos hwhole]
    refine ⟨_, rfl, fun _ _ => rfl, .inl ⟨segFree_ok h, ?_⟩⟩
    exact (update_of_ne hne _ _).trans hnew
  rw [if_neg hwhole]
  by_cases hfirst : addr = s.sBase seg
  · rw [if_pos hfirst, add_eq (by omega), sub_eq (by omega) (by omega)]
    refine ⟨_, rfl, fun p hp => update_of_ne (hother p hp) _ _,
      .inr (.inl ⟨h.cut (by omega) (by omega) (by omega) (by omega), hnew, .inr ?_⟩)⟩
    change eaddr ≤ update s.sBase seg _ seg
    rw [update_self]
    omega
  rw [if_neg hfirst]
  by_cases hlast : addr + len = s.sBase seg + s.sSize seg
  · rw [if_pos hlast, sub_eq (by omega) (by omega)]
    exact ⟨_, rfl, fun _ _ => rfl,
      .inr (.inl ⟨h.cutHigh (by omega) (by omega) (by omega), hnew, .inl rfl⟩)⟩
  have hcut := h.cutHigh (z := addr - s.sBase seg) (by omega) (by omega) (by omega)
  have hmid : addr + len = eaddr := by omega
  rw [if_neg hlast, hmid, sub_eq hlow (by omega), sub_eq (by omega) (by omega)]
  obtain ⟨t, halloc⟩ : ∃ t, segAlloc kernel _ new eaddr (s.sBase seg + s.sSize seg - eaddr) = some t :=
    segAlloc_total hcut hnew (by omega) (by omega) (by omega)
    (fun hkernel => by
      have huser := h.user hkernel seg hseg
      omega) fun p hp => by
      by_cases hp_seg : p = seg
      · left
        rw [hp_seg]
        change s.sBase seg + update s.sSize seg _ seg ≤ eaddr
        rw [update_self]
        omega
      · have hapart := h.apart hp hseg hp_seg
        change s.sBase p + update s.sSize seg _ p ≤ eaddr ∨ _ ≤ s.sBase p
        rw [update_of_ne hp_seg]
        omega
  obtain ⟨f, b, hcells, hgood, hbases⟩ := segAlloc_ok hcut halloc
  have hmask : pageMask eaddr = eaddr := by
    unfold pageMask
    omega
  refine ⟨t, halloc, fun p hp => ?_, .inr (.inr ⟨?_, ?_, f, b, hcells, hgood, ?_⟩)⟩
  · rw [hbases]
    exact update_of_ne (ne_of_mem_of_not_mem hp hoff) _ _
  · rw [h.sEnd_eq hseg]
    omega
  · rw [hbases]
    exact update_of_ne hne.symm _ _
  · rw [hbases, update_self, hmask]

/-- From a segment on, the loop comes to its end: as long as something is left to unmap there is a
structure for a high end; when nothing is left no segment has to be unmapped. -/
theorem unmapLoop_total (h : Good kernel s (front ++ seg :: back)) (headdr : eaddr < word)
    (haligned : raddr % 0x1000 = 0 ∧ eaddr % 0x1000 = 0)
    (hleft : s.used new = false ∧ raddr ≤ eaddr ∧ back.length + 1 < fuel ∨
      (∀ p ∈ seg :: back, eaddr ≤ s.sBase p) ∧ back.length < fuel) :
    ∃ r, unmapLoop kernel new refuses eaddr fuel s seg raddr = some r := by
  induction fuel generalizing s seg raddr front back with
  | zero => omega
  | succ fuel ih =>
    have hseg : seg ∈ front ++ seg :: back := by simp
    have hpages := h.aligned seg hseg
    have hend := h.sEnd_eq hseg
    have hhead : ∃ head, s.aSegs = some head := by
      rw [h.head]
      cases front with
      | nil => exact ⟨seg, rfl⟩
      | cons x front => exact ⟨x, rfl⟩
    obtain ⟨head, hhead⟩ := hhead
    rw [unmapLoop]
    by_cases hpast : s.sEnd seg ≤ raddr
    · rw [if_pos hpast]
      by_cases hnext : s.sBase seg < s.sBase (s.sNext seg)
      · rw [if_pos hnext]
        rcases h.next_eq hhead with ⟨hround, hnil⟩ | ⟨c, rest, hback, hc, -⟩
        · -- the head does not lie behind the last segment
          have hle : s.sBase head ≤ s.sBase seg := by
            have hmem : head ∈ front ++ seg :: back := mem_of_mem_head? (h.head.symm.trans hhead)
            rw [hnil] at hmem
            rcases mem_append.mp hmem with hfront | hlast
            · have hbefore := h.around.1 head hfront
              omega
            · rw [mem_singleton.mp hlast]
          rw [hround] at hnext
          omega
        · rw [hc]
          rw [hback, length_cons] at hleft
          have hgood := h
          rw [hback, show front ++ seg :: c :: rest = (front ++ [seg]) ++ c :: rest by simp]
            at hgood
          refine ih hgood haligned ?_
          rcases hleft with ⟨hnew, hle, hfuel⟩ | ⟨hdone, hfuel⟩
          · exact .inl ⟨hnew, hle, by omega⟩
          · exact .inr ⟨fun p hp => hdone p (.tail seg hp), by omega⟩
      · rw [if_neg hnext]
        exact ⟨_, rfl⟩
    · rw [if_neg hpast]
      by_cases hbase : eaddr ≤ s.sBase seg
      · rw [if_pos hbase]
        exact ⟨_, rfl⟩
      rw [if_neg hbase]
      by_cases hrefuses : refuses seg = true
      · rw [if_pos hrefuses]
        exact ⟨_, rfl⟩
      rw [if_neg hrefuses]
      obtain ⟨hnew, hle, hfuel⟩ := hleft.resolve_right fun hdone => hbase (hdone.1 seg (.head _))
      have hne : new ≠ seg := by
        rintro rfl
        rw [h.used new hseg] at hnew
        cases hnew
      have hfrom : s.sBase seg ≤ unmapFrom s seg raddr ∧
          unmapFrom s seg raddr ≤ s.sEnd seg ∧ unmapFrom s seg raddr ≤ eaddr ∧
          unmapFrom s seg raddr % 0x1000 = 0 := by
        unfold unmapFrom
        split
        · omega
        · omega
      obtain ⟨t, hunmap, hleft'⟩ := segUnmap_total h hfrom.1 hfrom.2.1 hfrom.2.2.1 headdr
        ⟨hfrom.2.2.2, haligned.2⟩ hnew hne
      have hsize := (unmapSize_ok h hseg hfrom.2.1 headdr).1 hfrom.2.2.1
      have hstop : add (unmapFrom s seg raddr) (unmapSize s seg (unmapFrom s seg raddr) eaddr) =
          min (s.sEnd seg) eaddr := by
        rw [add_eq (by omega), hsize]
      have hmin : min (s.sEnd seg) eaddr % 0x1000 = 0 := by omega
      rw [hunmap, bind_some, hstop]
      split
      · rename_i htest
        rcases h.next_eq hhead with ⟨hround, hnil⟩ | ⟨c, rest, hback, hc, -⟩
        · -- round again only to a segment that lost its beginning, and was alone
          rw [hround] at htest ⊢
          subst hnil
          have hfront : front = [] := by
            by_contra hsome
            obtain ⟨x, f, rfl⟩ := exists_cons_of_ne_nil hsome
            have hx : x = head := some.inj (h.head.symm.trans hhead)
            have hbefore := h.around.1 x (.head _)
            have hsame := hleft'.bases x (by simp)
            rw [hx] at hbefore hsame
            omega
          subst hfront
          have hseg_head : seg = head := some.inj (h.head.symm.trans hhead)
          rw [← hseg_head] at htest ⊢
          rcases hleft'.shape with ⟨hgone, -⟩ | ⟨hcut, -, hcase⟩ | ⟨-, hsame, -⟩
          · exact absurd hgone.head htest.1
          · rcases hcase with hsame | hdone
            · omega
            · refine ih hcut ⟨hmin, haligned.2⟩ (.inr ⟨fun p hp => ?_, by simp; omega⟩)
              rw [mem_singleton.mp hp]
              exact hdone
          · omega
        · rw [hc]
          subst hback
          simp only [length_cons] at hfuel
          rcases hleft'.shape with ⟨hgood, hnew'⟩ | ⟨hgood, hnew', -⟩ | ⟨hmid, hsame_seg,
            f, b, hcells, hgood, -⟩
          · exact ih hgood ⟨hmin, haligned.2⟩ (.inl ⟨hnew', min_le_right _ _, by omega⟩)
          · rw [show front ++ seg :: c :: rest = (front ++ [seg]) ++ c :: rest by simp] at hgood
            exact ih hgood ⟨hmin, haligned.2⟩ (.inl ⟨hnew', min_le_right _ _, by omega⟩)
          · -- the range ended in the segment, so all others lie behind it
            have hmem : c ∈ f ++ new :: b := by
              rw [perm_middle.mem_iff, ← hcells]
              simp
            obtain ⟨front', back', hsplit⟩ := append_of_mem hmem
            have hlength := congrArg length hsplit
            have hlength' := congrArg length hcells
            simp only [length_append, length_cons] at hlength hlength'
            have hnodup := h.circle.nodup
            have hafter := h.around.2 c (.head _)
            have hsame : ∀ p ∈ front ++ c :: rest, t.sBase p = s.sBase p := hleft'.bases
            have hc_same := hsame c (by simp)
            rw [hsplit] at hgood
            -- what came before `c` still does
            have hsub : front ++ [seg] ⊆ front' := by
              intro x hx
              have hlow : t.sBase x < t.sBase c ∧ x ≠ c := by
                rcases mem_append.mp hx with hfront | hlast
                · have hbefore := h.around.1 x hfront
                  have hx_same := hsame x (mem_append_left _ hfront)
                  refine ⟨by omega, ?_⟩
                  rintro rfl
                  omega
                · rw [mem_singleton.mp hlast]
                  refine ⟨by omega, ?_⟩
                  rintro rfl
                  omega
              have hin : x ∈ front' ++ c :: back' := by
                rw [← hsplit, perm_middle.mem_iff, ← hcells]
                refine .tail new ?_
                rcases mem_append.mp hx with hfront | hlast
                · exact mem_append_left _ hfront
                · rw [mem_singleton.mp hlast]
                  exact hseg
              rcases mem_append.mp hin with hfront | hback
              · exact hfront
              · have hlater := hgood.around.2 x ((mem_cons.mp hback).resolve_left hlow.2)
                omega
            have hcount : (front ++ [seg]).length ≤ front'.length := by
              refine (List.Nodup.subperm ?_ hsub).length_le
              rw [show front ++ seg :: c :: rest = (front ++ [seg]) ++ c :: rest by simp] at hnodup
              exact (nodup_append.mp hnodup).1
            rw [length_append, length_singleton] at hcount
            refine ih hgood ⟨hmin, haligned.2⟩ (.inr ⟨fun p hp => ?_, by omega⟩)
            rcases mem_cons.mp hp with heq | hback
            · rw [heq]
              omega
            · have hlater := hgood.around.2 p hback
              omega
      · exact ⟨_, rfl⟩

omit [DecidableEq Ptr] [Fintype Ptr] in
theorem pageRound_ok : pageRound a < word ∧ pageRound a % 0x1000 = 0 := by
  have hlt := add_lt (a := a) (b := 0xfff)
  unfold pageRound pageMask
  omega

/-- A range that does not wrap is unmapped, up to a segment whose driver refuses, whatever the
segments are. -/
theorem asUnmap_total (h : Good kernel s cells) (hnew : s.used new = false)
    (hrange : addr + size + 0xfff < word) : ∃ r, asUnmap kernel s new refuses addr size = some r := by
  unfold asUnmap
  cases hhead : s.aSegs with
  | none => exact ⟨_, rfl⟩
  | some head =>
    obtain ⟨rest, hrest⟩ := head?_eq_some_iff.mp (h.head.symm.trans hhead)
    have hlength := h.length_le
    have hgood := h
    rw [hrest, length_cons] at hlength
    rw [show cells = [] ++ head :: rest from hrest] at hgood
    refine unmapLoop_total hgood pageRound_ok.1 ⟨?_, pageRound_ok.2⟩ (.inl ⟨hnew, ?_, by omega⟩)
    · unfold pageMask
      omega
    · have hsum : add addr size = addr + size := add_eq (by omega)
      unfold pageRound pageMask
      rw [hsum, add_eq hrange]
      omega

theorem asUnmap_ok (h : Good kernel s cells)
    (hunmap : asUnmap kernel s new refuses addr size = some (done, t)) :
    ∃ cells', Good kernel t cells' := by
  unfold asUnmap at hunmap
  cases hhead : s.aSegs with
  | none =>
    rw [hhead] at hunmap
    rw [← (mk.inj (some.inj hunmap)).2]
    exact ⟨cells, h⟩
  | some head =>
    rw [hhead] at hunmap
    exact unmapLoop_ok h (mem_of_mem_head? (h.head.symm.trans hhead)) pageRound_ok.1 hunmap

/-! ### Runs -/

omit [DecidableEq Ptr] in
/-- What the links lead to from the head is on the list. -/
theorem Good.onList (h : Good kernel s cells) (hon : OnList s p) : p ∈ cells := by
  obtain ⟨n, head, hhead, rfl⟩ := hon
  have hmem : head ∈ cells := mem_of_mem_head? (h.head.symm.trans hhead)
  clear hhead
  induction n generalizing head with
  | zero => exact hmem
  | succ n ih =>
    rw [Function.iterate_succ_apply]
    exact ih (s.sNext head) (h.circle.next_mem hmem)

variable {event : Event Ptr} {events : List (Event Ptr)}

theorem step_good (h : Good kernel s cells) (hstep : Step kernel s event t) :
    ∃ cells', Good kernel t cells' := by
  cases hstep with
  | map _ hmap => exact asMap_ok h hmap
  | unmap _ _ hunmap => exact asUnmap_ok h hunmap
  | segat => exact ⟨cells, h.segat.2⟩
  | hint hon => exact ⟨cells, h.setHint fun p hp => h.onList (hon p hp)⟩

omit [DecidableEq Ptr] [Fintype Ptr] in
theorem empty_good (hsegs : s.aSegs = none) (hhint : s.aSeglast = none) : Good kernel s [] where
  head := hsegs
  circle := trivial
  sorted := List.Pairwise.nil
  fits p hp := absurd hp not_mem_nil
  aligned p hp := absurd hp not_mem_nil
  user _ p hp := absurd hp not_mem_nil
  used p hp := absurd hp not_mem_nil
  hint p hp := by
    rw [hhint] at hp
    cases hp

/-- After any calls from an empty address space on, the segments are a ring in the order of their
addresses, apart from each other; with any of them as the hint, `as_segat` finds the one that has an
address, or none if none has it; and no range that does not wrap is too much for `as_unmap`. -/
theorem segments_run (hsegs : s.aSegs = none) (hhint : s.aSeglast = none)
    (hrun : Exec (Step kernel) s events t) :
    ∃ cells, Good kernel t cells ∧ (∀ hint : Option Ptr, (∀ p, hint = some p → p ∈ cells) → ∀ addr p,
        (asSegat { t with aSeglast := hint } addr).1 = some p ↔
          p ∈ cells ∧ t.sBase p ≤ addr ∧ addr < t.sBase p + t.sSize p) ∧
      ∀ new refuses addr size, t.used new = false → addr + size + 0xfff < word →
        ∃ r, asUnmap kernel t new refuses addr size = some r := by
  have hinv : ∃ cells, Good kernel t cells :=
    hrun.keeps (fun u => ∃ cells, Good kernel u cells) (fun _ _ _ ⟨_, h⟩ hstep => step_good h hstep)
      ⟨[], empty_good hsegs hhint⟩
  obtain ⟨cells, h⟩ := hinv
  exact ⟨cells, h, fun hint hmem addr p => (h.setHint hmem).segat.1 p,
    fun new refuses addr size hnew hrange => asUnmap_total h hnew hrange⟩

end Segat

def bare : As (Fin 1) := ⟨none, none, fun _ => 0, fun _ => 0, id, id, fun _ => false⟩

theorem segments_run_page : ∃ t cells,
    Exec (Step false) bare [.map 0 0x1000 0x1000 .stays] t ∧ Good false t cells := by
  obtain ⟨t, hmap⟩ : ∃ t, asMap false bare 0 0x1000 0x1000 .stays = some t := ⟨_, rfl⟩
  have hrun : Exec (Step false) bare [.map 0 0x1000 0x1000 .stays] t :=
    Exec.single (Step.map (by decide) hmap)
  obtain ⟨cells, hgood, -⟩ := segments_run rfl rfl hrun
  exact ⟨t, cells, hrun, hgood⟩

end Svr42.Seg
