import Svr42.SegRuns

/-! `as_gap`: the search for a hole between the segments of an address space, within a window and in
either direction. -/

namespace Svr42.Seg
open List Nat Option

/-- The arguments of `as_gap`: the window `*basep` and `*lenp`, `minlen`, the direction `AH_HI` or
`AH_LO`, and `AH_CONTAIN` with its address. -/
structure GapArgs where
  base : Nat
  len : Nat
  minlen : Nat
  ahHi : Bool
  ahContain : Bool
  addr : Nat

def GapArgs.hibound (w : GapArgs) : Nat := add w.base w.len

/-- What `as_gap` leaves in `*basep` and `*lenp`, and whether it returns 0. -/
structure Gap where
  found : Bool
  base : Nat
  len : Nat
  deriving DecidableEq

/-- The hole from `lo` to `hi` as it is within the window, and whether it will do. -/
def tried (w : GapArgs) (lo hi : Nat) : Gap :=
  let base := if lo < w.base then w.base else lo
  let len := sub (if hi < w.hibound then hi else w.hibound) base
  { found := decide (validVaRange base len w.minlen ∧
      (w.ahContain = false ∨ base ≤ w.addr ∧ w.addr < add base len))
    base := base
    len := len }

section

variable {Ptr : Type} [DecidableEq Ptr]

/-- The search from low to high, from the segment `seg` on; `lo` is the end of the one before it, and
`g` what was tried last. -/
def upLoop (s : As Ptr) (w : GapArgs) (sseg : Ptr) : Nat → Ptr → Nat → Gap → Option Gap
  | 0, _, _, _ => none
  | fuel + 1, seg, lo, g =>
      let g := if w.base < s.sBase seg ∧ lo < s.sBase seg then tried w lo (s.sBase seg) else g
      if g.found = true then some g
      else if s.sEnd seg < w.hibound ∧ s.sNext seg ≠ sseg then
        upLoop s w sseg fuel (s.sNext seg) (s.sEnd seg) g
      else if s.sEnd seg < w.hibound then
        some (tried w (s.sEnd seg) (if s.sBase seg < s.sEnd seg then w.hibound else s.sBase seg))
      else some g

/-- The search from high to low; `hi` is the base of the segment behind `seg`. -/
def downLoop (s : As Ptr) (w : GapArgs) (sseg : Ptr) : Nat → Ptr → Nat → Gap → Option Gap
  | 0, _, _, _ => none
  | fuel + 1, seg, hi, g =>
      let g := if s.sEnd seg < w.hibound ∧ s.sEnd seg < hi then tried w (s.sEnd seg) hi else g
      if g.found = true then some g
      else if w.base < s.sBase seg ∧ s.sPrev seg ≠ sseg then
        downLoop s w sseg fuel (s.sPrev seg) (s.sBase seg) g
      else if w.base < s.sBase seg then
        some (tried w (if s.sBase seg < s.sEnd seg then w.base else s.sEnd seg) (s.sBase seg))
      else some g

def asGap [Fintype Ptr] (s : As Ptr) (w : GapArgs) : Option Gap :=
  if w.hibound < w.base then some ⟨false, w.base, w.len⟩
  else
    match s.aSegs with
    | none => some ⟨decide (validVaRange w.base w.len w.minlen), w.base, w.len⟩
    | some sseg =>
        if w.ahHi = true then
          downLoop s w sseg (Fintype.card Ptr) (s.sPrev sseg) w.hibound ⟨false, w.base, w.len⟩
        else upLoop s w sseg (Fintype.card Ptr) sseg w.base ⟨false, w.base, w.len⟩

end

variable {Ptr : Type} {s : As Ptr} {w : GapArgs} {cells front back rest : List Ptr} {g : Gap}
  {seg sseg p q : Ptr} {b b' m m' n n' lo hi fuel : Nat}

/-! ### Holes -/

/-- The range of `n` bytes from `b` on comes behind the segment; a range of no bytes not at its end. -/
def Behind (s : As Ptr) (b n : Nat) (p : Ptr) : Prop := s.sEnd p ≤ b ∧ s.sEnd p < b + n

def Ahead (s : As Ptr) (b n : Nat) (p : Ptr) : Prop := b + n ≤ s.sBase p ∧ b < s.sBase p

/-- A hole, clipped to the window from `lo` to `hi`: it overlaps no segment, and reaches on both sides
to one or to the end of the window. -/
structure Hole (s : As Ptr) (cells : List Ptr) (lo hi b n : Nat) : Prop where
  low : lo ≤ b
  high : b + n ≤ hi
  clear : ∀ p ∈ cells, Behind s b n p ∨ Ahead s b n p
  below : b = lo ∨ ∃ p ∈ cells, s.sEnd p = b
  above : b + n = hi ∨ ∃ p ∈ cells, s.sBase p = b + n

/-- The end of the window; there are no addresses from `word` on. -/
def GapArgs.top (w : GapArgs) : Nat := if w.base + w.len < word then w.base + w.len else word

/-- A hole that will do. -/
structure Wanted (s : As Ptr) (cells : List Ptr) (w : GapArgs) (b n : Nat) : Prop where
  hole : Hole s cells w.base w.top b n
  enough : w.minlen ≤ n
  contains : w.ahContain = true → b ≤ w.addr ∧ w.addr < b + n

/-- What `as_gap` is to find: 0 is returned exactly when there is a hole that will do, and it is the
lowest or the highest. -/
structure Finds (s : As Ptr) (cells : List Ptr) (w : GapArgs) (g : Gap) : Prop where
  found : g.found = true ↔ ∃ b n, Wanted s cells w b n
  wanted : g.found = true → Wanted s cells w g.base g.len
  first : g.found = true → ∀ b n, Wanted s cells w b n →
    if w.ahHi = true then b ≤ g.base else g.base ≤ b

/-- Segments in the order of the addresses, apart from each other. -/
structure Row (s : As Ptr) (cells : List Ptr) : Prop where
  sorted : cells.Pairwise fun p q => s.sBase p + s.sSize p ≤ s.sBase q
  bytes : ∀ p ∈ cells, 0 < s.sSize p
  fits : ∀ p ∈ cells, s.sBase p + s.sSize p < word

/-- The segment list of an address space is a ring of them. -/
structure Segments (s : As Ptr) (cells : List Ptr) : Prop extends Row s cells where
  head : s.aSegs = cells.head?
  circle : Circle s.sNext s.sPrev cells

theorem Finds.of_wanted (hfound : g.found = true) (hwanted : Wanted s cells w g.base g.len)
    (hfirst : ∀ b n, Wanted s cells w b n → if w.ahHi = true then b ≤ g.base else g.base ≤ b) :
    Finds s cells w g :=
  ⟨iff_of_true hfound ⟨g.base, g.len, hwanted⟩, fun _ => hwanted, fun _ => hfirst⟩

theorem Finds.of_none (hfound : ¬ g.found = true) (hnone : ∀ b n, ¬ Wanted s cells w b n) :
    Finds s cells w g :=
  ⟨iff_of_false hfound fun ⟨b, n, hwanted⟩ => hnone b n hwanted, fun h => absurd h hfound,
    fun h => absurd h hfound⟩

namespace Row

theorem sEnd_eq (h : Row s cells) (hp : p ∈ cells) : s.sEnd p = s.sBase p + s.sSize p :=
  add_eq (h.fits p hp)

theorem base_lt (h : Row s cells) (hp : p ∈ cells) : s.sBase p < s.sEnd p := by
  have hbytes := h.bytes p hp
  rw [h.sEnd_eq hp]
  omega

theorem around (h : Row s (front ++ seg :: back)) :
    (∀ p ∈ front, s.sEnd p ≤ s.sBase seg) ∧ ∀ p ∈ back, s.sEnd seg ≤ s.sBase p := by
  have hsorted := pairwise_append.mp h.sorted
  refine ⟨fun p hp => ?_, fun p hp => ?_⟩
  · rw [h.sEnd_eq (mem_append_left _ hp)]
    exact hsorted.2.2 p hp seg (.head _)
  · rw [h.sEnd_eq (mem_append_right _ (.head _))]
    exact (pairwise_cons.mp hsorted.2.1).1 p hp

theorem after (h : Row s (seg :: back)) : ∀ p ∈ back, s.sEnd seg ≤ s.sBase p :=
  (show Row s ([] ++ seg :: back) from h).around.2

theorem of_append (h : Row s (front ++ back)) : Row s back :=
  ⟨(pairwise_append.mp h.sorted).2.1, fun p hp => h.bytes p (mem_append_right _ hp),
    fun p hp => h.fits p (mem_append_right _ hp)⟩

end Row

/-! ### The holes between two segments -/

/-- The hole from `b` to `m` lies between the segments of `front` and those of `back`. -/
structure Region (s : As Ptr) (w : GapArgs) (front back : List Ptr) (b m : Nat) : Prop where
  low : w.base ≤ b
  high : m ≤ w.hibound
  le : b ≤ m
  behind : ∀ p ∈ front, s.sEnd p ≤ b ∧ s.sEnd p < m
  ahead : ∀ p ∈ back, m ≤ s.sBase p ∧ b < s.sBase p
  below : b = w.base ∨ ∃ p ∈ front, s.sEnd p = b
  above : m = w.hibound ∨ ∃ p ∈ back, s.sBase p = m

theorem Region.unique (h : Region s w front back b m) (h' : Region s w front back b' m') :
    b = b' ∧ m = m' := by
  have hb : ∀ {b b' m m' : Nat}, Region s w front back b m → Region s w front back b' m' → b ≤ b' := by
    intro b b' m m' h h'
    rcases h.below with hbase | ⟨p, hp, hend⟩
    · exact hbase ▸ h'.low
    · exact hend ▸ (h'.behind p hp).1
  have hm : ∀ {b b' m m' : Nat}, Region s w front back b m → Region s w front back b' m' → m' ≤ m := by
    intro b b' m m' h h'
    rcases h.above with hbound | ⟨p, hp, hbase⟩
    · exact hbound ▸ h'.high
    · exact hbase ▸ (h'.ahead p hp).1
  exact ⟨le_antisymm (hb h h') (hb h' h), le_antisymm (hm h' h) (hm h h')⟩

theorem top_eq (hw : w.base + w.len < word) : w.top = w.hibound := by
  rw [GapArgs.top, if_pos hw, GapArgs.hibound, add_eq hw]

theorem Region.hole (h : Region s w front back b m) (hw : w.base + w.len < word) :
    Hole s (front ++ back) w.base w.top b (m - b) := by
  have hm : b + (m - b) = m := Nat.add_sub_cancel' h.le
  rw [top_eq hw]
  refine ⟨h.low, by rw [hm]; exact h.high, fun p hp => ?_, ?_, ?_⟩
  · unfold Behind Ahead
    rw [hm]
    exact (mem_append.mp hp).imp (h.behind p) (h.ahead p)
  · exact h.below.imp_right fun ⟨p, hp, hend⟩ => ⟨p, mem_append_left _ hp, hend⟩
  · rw [hm]
    exact h.above.imp_right fun ⟨p, hp, hbase⟩ => ⟨p, mem_append_right _ hp, hbase⟩

/-- A hole that lies between the segments of `front` and those of `back` is theirs. -/
theorem Hole.region (h : Hole s (front ++ back) w.base w.top b n) (hw : w.base + w.len < word)
    (hlt : ∀ p ∈ front ++ back, s.sBase p < s.sEnd p) (hfront : ∀ p ∈ front, Behind s b n p)
    (hback : ∀ p ∈ back, Ahead s b n p) : Region s w front back b (b + n) := by
  rw [top_eq hw] at h
  refine ⟨h.low, h.high, le_add_right b n, hfront, hback, h.below.imp_right ?_, h.above.imp_right ?_⟩
  · rintro ⟨p, hp, hend⟩
    refine ⟨p, (mem_append.mp hp).resolve_right fun hp' => ?_, hend⟩
    have hahead := (hback p hp').2
    have hlt := hlt p hp
    omega
  · rintro ⟨p, hp, hbase⟩
    refine ⟨p, (mem_append.mp hp).resolve_left fun hp' => ?_, hbase⟩
    have hbehind := (hfront p hp').2
    have hlt := hlt p hp
    omega

/-- The space from `lo` to `hi` that the search comes to, between `front` and `back`. -/
structure Between (s : As Ptr) (w : GapArgs) (front back : List Ptr) (lo hi : Nat) : Prop where
  ends : ∀ p ∈ front, s.sEnd p ≤ lo
  bases : ∀ p ∈ back, hi ≤ s.sBase p
  lower : lo ≤ w.base ∨ ∃ p ∈ front, s.sEnd p = lo
  upper : w.hibound ≤ hi ∨ ∃ p ∈ back, s.sBase p = hi
  order : lo < hi
  lows : lo < w.hibound ∨ front = []
  highs : w.base < hi ∨ back = []

/-- Within the window it is their hole. -/
theorem Between.region (h : Between s w front back lo hi) (hw : w.base ≤ w.hibound) :
    Region s w front back (if lo < w.base then w.base else lo)
      (if hi < w.hibound then hi else w.hibound) := by
  have horder := h.order
  have hlows : front = [] → lo ≤ w.base := by
    rintro rfl
    exact h.lower.resolve_right fun ⟨p, hp, _⟩ => absurd hp not_mem_nil
  have hhighs : back = [] → w.hibound ≤ hi := by
    rintro rfl
    exact h.upper.resolve_right fun ⟨p, hp, _⟩ => absurd hp not_mem_nil
  have hlow : lo ≤ w.hibound := h.lows.elim le_of_lt fun hnil => (hlows hnil).trans hw
  have hhigh : w.base ≤ hi := h.highs.elim le_of_lt fun hnil => hw.trans (hhighs hnil)
  refine ⟨by split_ifs <;> omega, by split_ifs <;> omega, by split_ifs <;> omega, ?_, ?_, ?_, ?_⟩
  · intro p hp
    have hend := h.ends p hp
    have hlt : lo < w.hibound := h.lows.resolve_right (ne_nil_of_mem hp)
    constructor
    · split_ifs
      · omega
      · exact hend
    · split_ifs
      · omega
      · omega
  · intro p hp
    have hbase := h.bases p hp
    have hlt : w.base < hi := h.highs.resolve_right (ne_nil_of_mem hp)
    constructor
    · split_ifs
      · exact hbase
      · omega
    · split_ifs
      · omega
      · omega
  · rcases h.lower with hlo | ⟨p, hp, hend⟩
    · refine Or.inl ?_
      split_ifs
      · rfl
      · omega
    · by_cases hlo : lo < w.base
      · exact Or.inl (if_pos hlo)
      · exact Or.inr ⟨p, hp, by rw [if_neg hlo]; exact hend⟩
  · rcases h.upper with hhi | ⟨p, hp, hbase⟩
    · exact Or.inl (if_neg (not_lt.mpr hhi))
    · by_cases hhi : hi < w.hibound
      · exact Or.inr ⟨p, hp, by rw [if_pos hhi]; exact hbase⟩
      · exact Or.inl (if_neg hhi)

section

variable (h : Between s w front back lo hi) (hw : w.base + w.len < word)
include h hw

theorem Between.tried_eq : ∃ b m, Region s w front back b m ∧
      tried w lo hi = ⟨decide (w.minlen ≤ m - b ∧
        (w.ahContain = true → b ≤ w.addr ∧ w.addr < m)), b, m - b⟩ := by
  have hhibound : w.hibound = w.base + w.len := add_eq hw
  have hregion := h.region (by omega)
  refine ⟨_, _, hregion, ?_⟩
  have hle := hregion.le
  have hhigh := hregion.high
  unfold tried
  generalize (if lo < w.base then w.base else lo) = b at hle ⊢
  generalize (if hi < w.hibound then hi else w.hibound) = m at hle hhigh ⊢
  have hsub : sub m b = m - b := sub_eq hle (by omega)
  have hadd : add b (m - b) = m := by
    rw [add_eq (by omega)]
    omega
  simp only [hsub, validVaRange, hadd, Gap.mk.injEq, decide_eq_decide, and_true]
  constructor
  · rintro ⟨⟨-, hlen⟩, hcontain⟩
    refine ⟨not_lt.mp hlen, fun hflag => hcontain.resolve_left ?_⟩
    rw [hflag]
    exact Bool.noConfusion
  · rintro ⟨hlen, hcontain⟩
    refine ⟨⟨not_lt.mpr hle, not_lt.mpr hlen⟩, ?_⟩
    cases hflag : w.ahContain with
    | false => exact .inl rfl
    | true => exact .inr (hcontain hflag)

theorem Between.finds : (tried w lo hi).found = true →
      Wanted s (front ++ back) w (tried w lo hi).base (tried w lo hi).len := by
  obtain ⟨b, m, hregion, heq⟩ := h.tried_eq hw
  rw [heq]
  intro hfound
  obtain ⟨hlen, hcontain⟩ := of_decide_eq_true hfound
  refine ⟨hregion.hole hw, hlen, fun hflag => ?_⟩
  rw [Nat.add_sub_cancel' hregion.le]
  exact hcontain hflag

theorem Between.tried_apart :
    (∀ p ∈ front, s.sEnd p ≤ (tried w lo hi).base) ∧ ∀ p ∈ back, (tried w lo hi).base < s.sBase p := by
  obtain ⟨b, m, hregion, heq⟩ := h.tried_eq hw
  rw [heq]
  exact ⟨fun p hp => (hregion.behind p hp).1, fun p hp => (hregion.ahead p hp).2⟩

theorem Between.only (hlt : ∀ p ∈ front ++ back, s.sBase p < s.sEnd p)
    (hwanted : Wanted s (front ++ back) w b n) (hfront : ∀ p ∈ front, Behind s b n p)
    (hback : ∀ p ∈ back, Ahead s b n p) : (tried w lo hi).found = true ∧ (tried w lo hi).base = b := by
  obtain ⟨b', m', hregion, heq⟩ := h.tried_eq hw
  obtain ⟨hb, hm⟩ := hregion.unique (hwanted.hole.region hw hlt hfront hback)
  have henough := hwanted.enough
  rw [heq, hb, hm]
  refine ⟨decide_eq_true ⟨by omega, hwanted.contains⟩, rfl⟩

theorem Between.last (hlt : ∀ p ∈ front ++ back, s.sBase p < s.sEnd p)
    (hleft : ∀ b n, Wanted s (front ++ back) w b n →
      (∀ p ∈ front, Behind s b n p) ∧ ∀ p ∈ back, Ahead s b n p) :
    Finds s (front ++ back) w (tried w lo hi) := by
  by_cases hfound : (tried w lo hi).found = true
  · refine Finds.of_wanted hfound (h.finds hw hfound) fun b n hwanted => ?_
    obtain ⟨hfront, hback⟩ := hleft b n hwanted
    rw [(h.only hw hlt hwanted hfront hback).2, ite_self]
  · refine Finds.of_none hfound fun b n hwanted => hfound ?_
    obtain ⟨hfront, hback⟩ := hleft b n hwanted
    exact (h.only hw hlt hwanted hfront hback).1

end

/-! ### From low to high -/

/-- What has been tried when the search has looked in front of `seg`. -/
def triedBelow (s : As Ptr) (w : GapArgs) (seg : Ptr) (lo : Nat) (g : Gap) : Gap :=
  if w.base < s.sBase seg ∧ lo < s.sBase seg then tried w lo (s.sBase seg) else g

/-- The search has come to `seg` without finding a hole; `lo` is where the space in front of it
begins. -/
structure Climbed (s : As Ptr) (w : GapArgs) (front back : List Ptr) (lo : Nat) : Prop where
  ends : ∀ p ∈ front, s.sEnd p ≤ lo
  lower : lo ≤ w.base ∨ ∃ p ∈ front, s.sEnd p = lo
  lows : lo < w.hibound ∨ front = []
  left : ∀ b n, Wanted s (front ++ back) w b n → ∀ p ∈ front, Behind s b n p

section

variable (h : Row s (front ++ seg :: back))
include h

theorem Climbed.between (hup : Climbed s w front (seg :: back) lo)
    (hspace : w.base < s.sBase seg ∧ lo < s.sBase seg) :
    Between s w front (seg :: back) lo (s.sBase seg) := by
  refine ⟨hup.ends, fun p hp => ?_, hup.lower, .inr ⟨seg, .head _, rfl⟩, hspace.2,
    hup.lows, .inl hspace.1⟩
  rcases mem_cons.mp hp with rfl | hp
  · exact le_rfl
  · exact (h.base_lt (mem_append_right _ (.head _))).le.trans (h.around.2 p hp)

/-- A hole that will do and does not come behind `seg` is the one in front of it. -/
theorem Climbed.here (hw : w.base + w.len < word)
    (hup : Climbed s w front (seg :: back) lo) (hwanted : Wanted s (front ++ seg :: back) w b n)
    (hahead : Ahead s b n seg) :
    (triedBelow s w seg lo g).found = true ∧ (triedBelow s w seg lo g).base = b := by
  have hfront := hup.left b n hwanted
  have hlo : lo ≤ b := by
    rcases hup.lower with hbase | ⟨p, hp, hend⟩
    · exact hbase.trans hwanted.hole.low
    · exact hend ▸ (hfront p hp).1
  have hlow := hwanted.hole.low
  have hb := hahead.2
  have hspace : w.base < s.sBase seg ∧ lo < s.sBase seg := ⟨by omega, by omega⟩
  rw [triedBelow, if_pos hspace]
  refine (hup.between h hspace).only hw (fun p hp => h.base_lt hp) hwanted hfront fun p hp => ?_
  rcases mem_cons.mp hp with rfl | hp
  · exact hahead
  have hbehind := h.around.2 p hp
  have hlt := h.base_lt (mem_append_right front (mem_cons_self (l := back)))
  have hm := hahead.1
  exact ⟨by omega, by omega⟩

theorem Climbed.stop (hw : w.base + w.len < word)
    (hdir : w.ahHi = false) (hup : Climbed s w front (seg :: back) lo) (hg : ¬ g.found = true)
    (hfound : (triedBelow s w seg lo g).found = true) :
    Finds s (front ++ seg :: back) w (triedBelow s w seg lo g) := by
  have hspace : w.base < s.sBase seg ∧ lo < s.sBase seg := by
    by_contra hnone
    rw [triedBelow, if_neg hnone] at hfound
    exact hg hfound
  have hbetween := hup.between h hspace
  have hwanted := hbetween.finds hw
  rw [triedBelow, if_pos hspace] at hfound
  refine Finds.of_wanted ?_ ?_ fun b n hother => ?_
  · rw [triedBelow, if_pos hspace]
    exact hfound
  · rw [triedBelow, if_pos hspace]
    exact hwanted hfound
  · rw [hdir, if_neg Bool.false_ne_true]
    rcases hother.hole.clear seg (mem_append_right _ (.head _)) with hbehind | hahead
    · have htried := (hbetween.tried_apart hw).2 seg (.head _)
      have hlt := h.base_lt (mem_append_right front (mem_cons_self (l := back)))
      have hend := hbehind.1
      rw [triedBelow, if_pos hspace]
      omega
    · exact (hup.here h hw hother hahead).2.le

variable (hw : w.base + w.len < word) (hup : Climbed s w front (seg :: back) lo)
  (hfound : ¬ (triedBelow s w seg lo g).found = true)
include hw hup hfound

/-- Nothing in front of `seg` either. -/
theorem Climbed.climb :
    ∀ b n, Wanted s (front ++ seg :: back) w b n → ∀ p ∈ front ++ [seg], Behind s b n p := by
  intro b n hwanted p hp
  rcases mem_append.mp hp with hp | hp
  · exact hup.left b n hwanted p hp
  · rw [mem_singleton.mp hp]
    exact (hwanted.hole.clear seg (mem_append_right _ (.head _))).resolve_right
      fun hahead => hfound (hup.here h hw hwanted hahead).1

theorem Climbed.next (hmore : s.sEnd seg < w.hibound) :
    Climbed s w (front ++ [seg]) back (s.sEnd seg) := by
  refine ⟨fun p hp => ?_, .inr ⟨seg, mem_append_right _ (.head _), rfl⟩, .inl hmore, ?_⟩
  · rcases mem_append.mp hp with hp | hp
    · exact (h.around.1 p hp).trans (h.base_lt (mem_append_right _ (.head _))).le
    · exact (mem_singleton.mp hp) ▸ le_rfl
  · rw [append_assoc, singleton_append]
    exact hup.climb h hw hfound

/-- The window ends before the end of `seg`. -/
theorem Climbed.beyond (hmore : ¬ s.sEnd seg < w.hibound) :
    Finds s (front ++ seg :: back) w (triedBelow s w seg lo g) := by
  refine Finds.of_none hfound fun b n hwanted => hmore ?_
  have hbehind := hup.climb h hw hfound b n hwanted seg (mem_append_right _ (.head _))
  have hhigh := hwanted.hole.high
  rw [top_eq hw] at hhigh
  exact hbehind.2.trans_le hhigh

end

theorem upLoop_succ [DecidableEq Ptr] : upLoop s w sseg (fuel + 1) seg lo g =
    if (triedBelow s w seg lo g).found = true then some (triedBelow s w seg lo g)
    else if s.sEnd seg < w.hibound ∧ s.sNext seg ≠ sseg then
      upLoop s w sseg fuel (s.sNext seg) (s.sEnd seg) (triedBelow s w seg lo g)
    else if s.sEnd seg < w.hibound then
      some (tried w (s.sEnd seg) (if s.sBase seg < s.sEnd seg then w.hibound else s.sBase seg))
    else some (triedBelow s w seg lo g) := rfl

theorem upLoop_finds [DecidableEq Ptr] (h : Segments s (front ++ seg :: back))
    (hhead : (front ++ seg :: back).head? = some sseg) (hw : w.base + w.len < word)
    (hdir : w.ahHi = false) (hup : Climbed s w front (seg :: back) lo) (hg : ¬ g.found = true)
    (hfuel : back.length < fuel) :
    ∃ g', upLoop s w sseg fuel seg lo g = some g' ∧ Finds s (front ++ seg :: back) w g' := by
  induction back generalizing front seg lo g fuel with
  | nil =>
    obtain ⟨fuel, rfl⟩ : ∃ n, fuel = n + 1 := ⟨fuel - 1, by omega⟩
    rw [upLoop_succ]
    by_cases hfound : (triedBelow s w seg lo g).found = true
    · rw [if_pos hfound]
      exact ⟨_, rfl, hup.stop h.toRow hw hdir hg hfound⟩
    have hlast : ¬ (s.sEnd seg < w.hibound ∧ s.sNext seg ≠ sseg) := by
      rintro ⟨-, hne⟩
      rcases h.circle.next_cases hhead with ⟨heq, -⟩ | ⟨c, rest, hnil, -⟩
      · exact hne heq
      · exact cons_ne_nil c rest hnil.symm
    rw [if_neg hfound, if_neg hlast]
    by_cases hmore : s.sEnd seg < w.hibound
    · have hnext := hup.next h.toRow hw hfound hmore
      have hbetween : Between s w (front ++ [seg]) [] (s.sEnd seg) w.hibound :=
        ⟨hnext.ends, nofun, hnext.lower, .inl le_rfl, hmore, hnext.lows, .inr rfl⟩
      have hfinds := hbetween.last hw (fun p hp => h.base_lt (by rwa [append_nil] at hp))
        fun b n hwanted =>
          ⟨hnext.left b n hwanted, nofun⟩
      rw [append_nil] at hfinds
      rw [if_pos hmore, if_pos (h.base_lt (mem_append_right _ (.head _)))]
      exact ⟨_, rfl, hfinds⟩
    · rw [if_neg hmore]
      exact ⟨_, rfl, hup.beyond h.toRow hw hfound hmore⟩
  | cons c rest ih =>
    obtain ⟨fuel, rfl⟩ : ∃ n, fuel = n + 1 := ⟨fuel - 1, by omega⟩
    rw [length_cons] at hfuel
    rw [upLoop_succ]
    by_cases hfound : (triedBelow s w seg lo g).found = true
    · rw [if_pos hfound]
      exact ⟨_, rfl, hup.stop h.toRow hw hdir hg hfound⟩
    rw [if_neg hfound]
    by_cases hmore : s.sEnd seg < w.hibound
    · have hgoes : s.sNext seg = c ∧ c ≠ sseg := by
        rcases h.circle.next_cases hhead with ⟨-, hnil⟩ | ⟨c', rest', hcons, hnext, hne⟩
        · exact absurd hnil (cons_ne_nil c rest)
        · rw [cons.inj hcons |>.1]
          exact ⟨hnext, hne⟩
      have happend : front ++ seg :: c :: rest = (front ++ [seg]) ++ c :: rest := by
        rw [append_assoc, singleton_append]
      have hnext := hup.next h.toRow hw hfound hmore
      rw [happend] at h hhead ⊢
      rw [hgoes.1, if_pos ⟨hmore, hgoes.2⟩]
      exact ih h hhead hnext hfound (by omega)
    · rw [if_neg fun hgoes => hmore hgoes.1, if_neg hmore]
      exact ⟨_, rfl, hup.beyond h.toRow hw hfound hmore⟩

/-! ### From high to low -/

def triedAbove (s : As Ptr) (w : GapArgs) (seg : Ptr) (hi : Nat) (g : Gap) : Gap :=
  if s.sEnd seg < w.hibound ∧ s.sEnd seg < hi then tried w (s.sEnd seg) hi else g

/-- The search has come down to the segments of `front`; `hi` is where the space behind them ends. -/
structure Descended (s : As Ptr) (w : GapArgs) (front back : List Ptr) (hi : Nat) : Prop where
  bases : ∀ p ∈ back, hi ≤ s.sBase p
  upper : w.hibound ≤ hi ∨ ∃ p ∈ back, s.sBase p = hi
  highs : w.base < hi ∨ back = []
  left : ∀ b n, Wanted s (front ++ back) w b n → ∀ p ∈ back, Ahead s b n p

theorem Row.last_mem : seg ∈ front ++ [seg] ++ back :=
  mem_append_left _ (mem_append_right _ (.head _))

section

variable (h : Row s (front ++ [seg] ++ back))
include h

theorem Row.around_last : (∀ p ∈ front, s.sEnd p ≤ s.sBase seg) ∧ ∀ p ∈ back, s.sEnd seg ≤ s.sBase p := by
  rw [append_assoc, singleton_append] at h
  exact h.around

theorem Descended.between (hdown : Descended s w (front ++ [seg]) back hi)
    (hspace : s.sEnd seg < w.hibound ∧ s.sEnd seg < hi) :
    Between s w (front ++ [seg]) back (s.sEnd seg) hi := by
  refine ⟨fun p hp => ?_, hdown.bases, .inr ⟨seg, mem_append_right _ (.head _), rfl⟩,
    hdown.upper, hspace.2, .inl hspace.1, hdown.highs⟩
  rcases mem_append.mp hp with hp | hp
  · exact (h.around_last.1 p hp).trans (h.base_lt Row.last_mem).le
  · exact (mem_singleton.mp hp) ▸ le_rfl

/-- A hole that will do and does not come before `seg` is the one behind it. -/
theorem Descended.here (hw : w.base + w.len < word) (hdown : Descended s w (front ++ [seg]) back hi)
    (hwanted : Wanted s (front ++ [seg] ++ back) w b n) (hbehind : Behind s b n seg) :
    (triedAbove s w seg hi g).found = true ∧ (triedAbove s w seg hi g).base = b := by
  have hback := hdown.left b n hwanted
  have hhigh := hwanted.hole.high
  rw [top_eq hw] at hhigh
  have hhi : b + n ≤ hi := by
    rcases hdown.upper with hbound | ⟨p, hp, hbase⟩
    · exact hhigh.trans hbound
    · exact hbase ▸ (hback p hp).1
  have hend := hbehind.2
  have hspace : s.sEnd seg < w.hibound ∧ s.sEnd seg < hi := ⟨by omega, by omega⟩
  rw [triedAbove, if_pos hspace]
  refine (hdown.between h hspace).only hw (fun p hp => h.base_lt hp) hwanted (fun p hp => ?_) hback
  rcases mem_append.mp hp with hp | hp
  · have hbefore := h.around_last.1 p hp
    have hlt := h.base_lt Row.last_mem
    have hm := hbehind.1
    exact ⟨by omega, by omega⟩
  · exact (mem_singleton.mp hp) ▸ hbehind

theorem Descended.stop (hw : w.base + w.len < word) (hdir : w.ahHi = true)
    (hdown : Descended s w (front ++ [seg]) back hi) (hg : ¬ g.found = true)
    (hfound : (triedAbove s w seg hi g).found = true) :
    Finds s (front ++ [seg] ++ back) w (triedAbove s w seg hi g) := by
  have hspace : s.sEnd seg < w.hibound ∧ s.sEnd seg < hi := by
    by_contra hnone
    rw [triedAbove, if_neg hnone] at hfound
    exact hg hfound
  have hbetween := hdown.between h hspace
  have hwanted := hbetween.finds hw
  rw [triedAbove, if_pos hspace] at hfound
  refine Finds.of_wanted ?_ ?_ fun b n hother => ?_
  · rw [triedAbove, if_pos hspace]
    exact hfound
  · rw [triedAbove, if_pos hspace]
    exact hwanted hfound
  · rw [if_pos hdir]
    rcases hother.hole.clear seg Row.last_mem with hbehind | hahead
    · exact (hdown.here h hw hother hbehind).2.ge
    have htried := (hbetween.tried_apart hw).1 seg (mem_append_right _ (.head _))
    have hlt := h.base_lt Row.last_mem
    have hbase := hahead.2
    rw [triedAbove, if_pos hspace]
    omega

variable (hw : w.base + w.len < word) (hdown : Descended s w (front ++ [seg]) back hi)
  (hfound : ¬ (triedAbove s w seg hi g).found = true)
include hw hdown hfound

/-- Nothing behind `seg` either. -/
theorem Descended.descend :
    ∀ b n, Wanted s (front ++ [seg] ++ back) w b n → ∀ p ∈ seg :: back, Ahead s b n p := by
  intro b n hwanted p hp
  rcases mem_cons.mp hp with rfl | hp
  · exact (hwanted.hole.clear p Row.last_mem).resolve_left
      fun hbehind => hfound (hdown.here h hw hwanted hbehind).1
  · exact hdown.left b n hwanted p hp

theorem Descended.next (hmore : w.base < s.sBase seg) :
    Descended s w front (seg :: back) (s.sBase seg) := by
  refine ⟨fun p hp => ?_, .inr ⟨seg, .head _, rfl⟩, .inl hmore, ?_⟩
  · rcases mem_cons.mp hp with rfl | hp
    · exact le_rfl
    · exact (h.base_lt Row.last_mem).le.trans (h.around_last.2 p hp)
  · have hdescend := hdown.descend h hw hfound
    rw [append_assoc, singleton_append] at hdescend
    exact hdescend

/-- The window begins behind the base of `seg`. -/
theorem Descended.beyond (hmore : ¬ w.base < s.sBase seg) :
    Finds s (front ++ [seg] ++ back) w (triedAbove s w seg hi g) := by
  refine Finds.of_none hfound fun b n hwanted => hmore ?_
  have hahead := hdown.descend h hw hfound b n hwanted seg (.head _)
  exact hwanted.hole.low.trans_lt hahead.2

end

/-- The way back along `cells`, that the loop takes for all there are. -/
structure WayBack (s : As Ptr) (sseg : Ptr) (cells : List Ptr) : Prop where
  first : ∀ p rest, cells = p :: rest → s.sPrev p = sseg
  other : ∀ front q p back, cells = front ++ [q] ++ p :: back → s.sPrev p = q ∧ q ≠ sseg

theorem downLoop_succ [DecidableEq Ptr] : downLoop s w sseg (fuel + 1) seg hi g =
    if (triedAbove s w seg hi g).found = true then some (triedAbove s w seg hi g)
    else if w.base < s.sBase seg ∧ s.sPrev seg ≠ sseg then
      downLoop s w sseg fuel (s.sPrev seg) (s.sBase seg) (triedAbove s w seg hi g)
    else if w.base < s.sBase seg then
      some (tried w (if s.sBase seg < s.sEnd seg then w.base else s.sEnd seg) (s.sBase seg))
    else some (triedAbove s w seg hi g) := rfl

theorem downLoop_finds [DecidableEq Ptr] (h : Row s (front ++ [seg] ++ back))
    (hway : WayBack s sseg (front ++ [seg] ++ back)) (hw : w.base + w.len < word) (hdir : w.ahHi = true)
    (hdown : Descended s w (front ++ [seg]) back hi) (hg : ¬ g.found = true)
    (hfuel : front.length < fuel) :
    ∃ g', downLoop s w sseg fuel seg hi g = some g' ∧ Finds s (front ++ [seg] ++ back) w g' := by
  induction front using reverseRec generalizing seg back hi g fuel with
  | nil =>
    obtain ⟨fuel, rfl⟩ : ∃ n, fuel = n + 1 := ⟨fuel - 1, by omega⟩
    rw [downLoop_succ]
    by_cases hfound : (triedAbove s w seg hi g).found = true
    · rw [if_pos hfound]
      exact ⟨_, rfl, hdown.stop h hw hdir hg hfound⟩
    have hlast : ¬ (w.base < s.sBase seg ∧ s.sPrev seg ≠ sseg) :=
      fun hgoes => hgoes.2 (hway.first seg back rfl)
    rw [if_neg hfound, if_neg hlast]
    by_cases hmore : w.base < s.sBase seg
    · have hnext := hdown.next h hw hfound hmore
      have hbetween : Between s w [] (seg :: back) w.base (s.sBase seg) :=
        ⟨nofun, hnext.bases, .inl le_rfl, hnext.upper, hmore, .inr rfl, hnext.highs⟩
      rw [if_pos hmore, if_pos (h.base_lt Row.last_mem)]
      exact ⟨_, rfl, hbetween.last hw (fun p hp => h.base_lt hp) fun b n hwanted =>
          ⟨nofun, hnext.left b n hwanted⟩⟩
    · rw [if_neg hmore]
      exact ⟨_, rfl, hdown.beyond h hw hfound hmore⟩
  | append_singleton front q ih =>
    obtain ⟨fuel, rfl⟩ : ∃ n, fuel = n + 1 := ⟨fuel - 1, by omega⟩
    rw [length_append, length_singleton] at hfuel
    rw [downLoop_succ]
    by_cases hfound : (triedAbove s w seg hi g).found = true
    · rw [if_pos hfound]
      exact ⟨_, rfl, hdown.stop h hw hdir hg hfound⟩
    rw [if_neg hfound]
    by_cases hmore : w.base < s.sBase seg
    · have happend : front ++ [q] ++ [seg] ++ back = front ++ [q] ++ seg :: back := by
        rw [append_assoc, singleton_append]
      have hnext := hdown.next h hw hfound hmore
      obtain ⟨hprev, hne⟩ := hway.other front q seg back happend
      rw [happend] at h hway ⊢
      rw [hprev, if_pos ⟨hmore, hne⟩]
      exact ih h hway hnext hfound (by omega)
    · rw [if_neg fun hgoes => hmore hgoes.1, if_neg hmore]
      exact ⟨_, rfl, hdown.beyond h hw hfound hmore⟩

/-! ### The first segment -/

/-- Where the part of the window in front of the segment `c` ends. -/
def lowEnd (s : As Ptr) (w : GapArgs) (c : Ptr) : Nat :=
  if s.sBase c < w.hibound then s.sBase c else w.hibound

/-- No hole from the second segment `c` on will do; the window in front of it would, but for the first
segment `a`, which overlaps it. -/
structure Skipped (s : As Ptr) (w : GapArgs) (a c : Ptr) (rest : List Ptr) : Prop where
  none : ∀ b n, Wanted s (a :: c :: rest) w b n → b < s.sEnd c
  below : w.base < s.sBase c
  enough : w.minlen ≤ lowEnd s w c - w.base
  contains : w.ahContain = true → w.base ≤ w.addr ∧ w.addr < lowEnd s w c
  overlaps : ¬ (Behind s w.base (lowEnd s w c - w.base) a ∨
    Ahead s w.base (lowEnd s w c - w.base) a)

variable {a c : Ptr}

/-- Above the second segment the first makes no difference. -/
theorem Row.wanted_above (h : Row s (a :: c :: rest)) (hb : s.sEnd c ≤ b) :
    Wanted s (a :: c :: rest) w b n ↔ Wanted s (c :: rest) w b n := by
  have hac : s.sEnd a ≤ s.sBase c := h.after c (.head _)
  have hc : s.sBase c < s.sEnd c := h.base_lt (.tail a (.head _))
  have ha : s.sBase a < s.sEnd a := h.base_lt (.head _)
  constructor
  · rintro ⟨⟨hlow, hhigh, hclear, hbelow, habove⟩, henough, hcontains⟩
    refine ⟨⟨hlow, hhigh, fun p hp => hclear p (.tail a hp), hbelow.imp_right ?_,
      habove.imp_right ?_⟩, henough, hcontains⟩
    · rintro ⟨p, hp, hend⟩
      rcases mem_cons.mp hp with rfl | hp
      · omega
      · exact ⟨p, hp, hend⟩
    · rintro ⟨p, hp, hbase⟩
      rcases mem_cons.mp hp with rfl | hp
      · omega
      · exact ⟨p, hp, hbase⟩
  · rintro ⟨⟨hlow, hhigh, hclear, hbelow, habove⟩, henough, hcontains⟩
    refine ⟨⟨hlow, hhigh, fun p hp => ?_, ?_, ?_⟩, henough, hcontains⟩
    · rcases mem_cons.mp hp with rfl | hp
      · exact .inl ⟨by omega, by omega⟩
      · exact hclear p hp
    · exact hbelow.imp_right fun ⟨p, hp, hend⟩ => ⟨p, .tail a hp, hend⟩
    · exact habove.imp_right fun ⟨p, hp, hbase⟩ => ⟨p, .tail a hp, hbase⟩

/-- A hole that is not above the second segment is in front of it, and of all behind it. -/
theorem Row.ahead_all (h : Row s (c :: rest)) (hclear : Behind s b n c ∨ Ahead s b n c)
    (hb : b < s.sEnd c) : ∀ p ∈ c :: rest, Ahead s b n p := by
  have hc := hclear.resolve_left fun hbehind => not_lt.mpr hbehind.1 hb
  have hlt : s.sBase c < s.sEnd c := h.base_lt (.head _)
  intro p hp
  rcases mem_cons.mp hp with rfl | hp
  · exact hc
  · have hafter : s.sEnd c ≤ s.sBase p := h.after p hp
    have hm := hc.1
    exact ⟨by omega, by omega⟩

theorem Row.region_low (h : Row s (c :: rest)) (hle : w.base ≤ w.hibound) (hbelow : w.base < s.sBase c) :
    Region s w [] (c :: rest) w.base (lowEnd s w c) := by
  have hbetween : Between s w [] (c :: rest) w.base (s.sBase c) := by
    refine ⟨nofun, fun p hp => ?_, .inl le_rfl, .inr ⟨c, .head _, rfl⟩, hbelow, .inr rfl, .inl hbelow⟩
    rcases mem_cons.mp hp with rfl | hp
    · exact le_rfl
    · exact (h.base_lt (.head _)).le.trans (h.after p hp)
  have hregion := hbetween.region hle
  rw [ite_self] at hregion
  exact hregion

/-- With a hole above the second segment the first is not come to. -/
theorem Row.finds_above (h : Row s (a :: c :: rest)) (hdir : w.ahHi = true)
    (hfinds : Finds s (c :: rest) w g) (hwanted : Wanted s (a :: c :: rest) w b n) (hb : s.sEnd c ≤ b) :
    Finds s (a :: c :: rest) w g := by
  have hfound : g.found = true := hfinds.found.mpr ⟨b, n, (h.wanted_above hb).mp hwanted⟩
  have hfirst : ∀ b n, Wanted s (c :: rest) w b n → b ≤ g.base := by
    intro b n hwanted
    have hle := hfinds.first hfound b n hwanted
    rwa [if_pos hdir] at hle
  have hg : s.sEnd c ≤ g.base := hb.trans (hfirst b n ((h.wanted_above hb).mp hwanted))
  refine Finds.of_wanted hfound ((h.wanted_above hg).mpr (hfinds.wanted hfound)) fun b' n' hother => ?_
  rw [if_pos hdir]
  by_cases hb' : s.sEnd c ≤ b'
  · exact hfirst b' n' ((h.wanted_above hb').mp hother)
  · omega

section

variable (hw : w.base + w.len < word) (hwanted : Wanted s cells w b n) (hahead : Ahead s b n c)
include hw hwanted hahead

/-- A hole in front of the second segment is within the part of the window there. -/
theorem Wanted.le_lowEnd : b + n ≤ lowEnd s w c := by
  have hhigh := hwanted.hole.high
  rw [top_eq hw] at hhigh
  unfold lowEnd
  split_ifs
  · exact hahead.1
  · exact hhigh

theorem Wanted.low_fits : w.base < s.sBase c ∧ w.minlen ≤ lowEnd s w c - w.base ∧
        (w.ahContain = true → w.base ≤ w.addr ∧ w.addr < lowEnd s w c) := by
  have hlow := hwanted.hole.low
  have henough := hwanted.enough
  have hbelow : w.base < s.sBase c := hlow.trans_lt hahead.2
  have hm := hwanted.le_lowEnd hw hahead
  refine ⟨hbelow, by omega, fun hflag => ?_⟩
  have hcontains := hwanted.contains hflag
  exact ⟨by omega, by omega⟩

end

/-- What is found without the first segment is right unless the first is skipped wrongly. -/
theorem Row.finds_iff (h : Row s (a :: c :: rest)) (hw : w.base + w.len < word) (hdir : w.ahHi = true)
    (hfinds : Finds s (c :: rest) w g) : Finds s (a :: c :: rest) w g ↔ ¬ Skipped s w a c rest := by
  have hrow : Row s (c :: rest) := (show Row s ([a] ++ c :: rest) from h).of_append
  have hle : w.base ≤ w.hibound := by
    rw [GapArgs.hibound, add_eq hw]
    omega
  by_cases habove : ∃ b n, Wanted s (a :: c :: rest) w b n ∧ s.sEnd c ≤ b
  · obtain ⟨b, n, hwanted, hb⟩ := habove
    refine iff_of_true (h.finds_above hdir hfinds hwanted hb) fun hskipped => ?_
    exact not_lt.mpr hb (hskipped.none b n hwanted)
  have hnone : ∀ b n, Wanted s (a :: c :: rest) w b n → b < s.sEnd c := fun b n hwanted =>
    not_le.mp fun hb => habove ⟨b, n, hwanted, hb⟩
  have hnone' : ∀ b n, Wanted s (c :: rest) w b n → b < s.sEnd c := fun b n hwanted =>
    not_le.mp fun hb => habove ⟨b, n, (h.wanted_above hb).mpr hwanted, hb⟩
  by_cases hfits : w.base < s.sBase c ∧ w.minlen ≤ lowEnd s w c - w.base ∧
      (w.ahContain = true → w.base ≤ w.addr ∧ w.addr < lowEnd s w c)
  · obtain ⟨hbelow, henough, hcontains⟩ := hfits
    have hregion := hrow.region_low hle hbelow
    have hlow : ∀ b n, Wanted s (c :: rest) w b n → w.base = b ∧ lowEnd s w c = b + n := by
      intro b n hwanted
      have hahead := hrow.ahead_all (hwanted.hole.clear c (.head _)) (hnone' b n hwanted)
      exact hregion.unique ((show Hole s ([] ++ c :: rest) w.base w.top b n from
        hwanted.hole).region hw (fun p hp => hrow.base_lt hp)
        nofun hahead)
    have hwanted : Wanted s (c :: rest) w w.base (lowEnd s w c - w.base) := by
      refine ⟨hregion.hole hw, henough, fun hflag => ?_⟩
      rw [Nat.add_sub_cancel' hregion.le]
      exact hcontains hflag
    have hfound := hfinds.found.mpr ⟨_, _, hwanted⟩
    obtain ⟨hbase, hend⟩ := hlow _ _ (hfinds.wanted hfound)
    have hlen : g.len = lowEnd s w c - w.base := by omega
    by_cases hclear : Behind s w.base (lowEnd s w c - w.base) a ∨
        Ahead s w.base (lowEnd s w c - w.base) a
    · refine iff_of_true ?_ fun hskipped => hskipped.overlaps hclear
      have hends : ∀ p ∈ c :: rest, s.sEnd c ≤ s.sEnd p := by
        intro p hp
        rcases mem_cons.mp hp with rfl | hp
        · exact le_rfl
        · exact (hrow.after p hp).trans (hrow.base_lt (.tail c hp)).le
      have hright : Wanted s (a :: c :: rest) w w.base (lowEnd s w c - w.base) := by
        obtain ⟨⟨hlow, hhigh, hothers, -, habove⟩, -, -⟩ := hwanted
        refine ⟨⟨hlow, hhigh, fun p hp => ?_, .inl rfl,
          habove.imp_right fun ⟨p, hp, hbase⟩ => ⟨p, .tail a hp, hbase⟩⟩,
          henough, fun hflag => ?_⟩
        · rcases mem_cons.mp hp with rfl | hp
          · exact hclear
          · exact hothers p hp
        · rw [Nat.add_sub_cancel' hregion.le]
          exact hcontains hflag
      refine Finds.of_wanted hfound (by rwa [← hbase, hlen]) fun b n hother => ?_
      rw [if_pos hdir, ← hbase]
      rcases hother.hole.below with hlow | ⟨p, hp, hend⟩
      · exact hlow.le
      rcases mem_cons.mp hp with rfl | hp
      · rcases hclear with hbehind | hahead
        · exact hend ▸ hbehind.1
        have hc := hrow.ahead_all (hother.hole.clear c (.tail p (.head _))) (hnone b n hother) c
          (.head _)
        have hm := hother.le_lowEnd hw hc
        have hlt : s.sBase p < s.sEnd p := h.base_lt (.head _)
        have hp := hahead.1
        omega
      · have hp := hends p hp
        have hb := hnone b n hother
        omega
    · refine iff_of_false (fun hright => hclear ?_)
        (not_not.mpr ⟨hnone, hbelow, henough, hcontains, hclear⟩)
      have hright := (hright.wanted hfound).hole.clear a (.head _)
      rwa [← hbase, hlen] at hright
  · have hnot : ¬ g.found = true := by
      intro hfound
      obtain ⟨b, n, hwanted⟩ := hfinds.found.mp hfound
      exact hfits (hwanted.low_fits hw (hrow.ahead_all
        (hwanted.hole.clear c (.head _)) (hnone' b n hwanted) c (.head _)))
    refine iff_of_true (Finds.of_none hnot fun b n hwanted => ?_) fun hskipped =>
      hfits ⟨hskipped.below, hskipped.enough, hskipped.contains⟩
    exact hfits (hwanted.low_fits hw (hrow.ahead_all (hwanted.hole.clear c
      (.tail a (.head _))) (hnone b n hwanted) c (.head _)))

/-! ### The searches -/

/-- From the last segment down, the loop takes all but the first, if there is another. -/
theorem Segments.wayBack (h : Segments s (a :: c :: rest)) : WayBack s a (c :: rest) := by
  have hnodup := h.circle.nodup
  constructor
  · intro p back heq
    obtain ⟨rfl, rfl⟩ := cons.inj heq
    have hprev := (show Circle s.sNext s.sPrev ([a] ++ c :: rest) from h.circle).prev_eq
    rw [hprev, getLastD_concat]
  · intro front q p back heq
    have hcells : a :: c :: rest = (a :: front ++ [q]) ++ p :: back := by
      rw [heq]
      rfl
    have hcircle := h.circle
    rw [hcells] at hcircle hnodup
    constructor
    · rw [hcircle.prev_eq, ← append_assoc, getLastD_concat]
    · rintro rfl
      rw [append_assoc, cons_append] at hnodup
      exact (nodup_cons.mp hnodup).1 (by simp)

theorem descended_start : Descended s w cells [] w.hibound where
  bases _ hp := absurd hp not_mem_nil
  upper := .inl le_rfl
  highs := .inr rfl
  left _ _ _ _ hp := absurd hp not_mem_nil

theorem climbed_start : Climbed s w [] cells w.base where
  ends _ hp := absurd hp not_mem_nil
  lower := .inl le_rfl
  lows := .inr rfl
  left _ _ _ _ hp := absurd hp not_mem_nil

theorem downLoop_all [DecidableEq Ptr] (h : Row s (front ++ [seg])) (hway : WayBack s sseg (front ++ [seg]))
    (hw : w.base + w.len < word) (hdir : w.ahHi = true) (hg : ¬ g.found = true)
    (hfuel : front.length < fuel) :
    ∃ g', downLoop s w sseg fuel seg w.hibound g = some g' ∧ Finds s (front ++ [seg]) w g' := by
  rw [← append_nil (front ++ [seg])] at h hway ⊢
  exact downLoop_finds h hway hw hdir descended_start hg hfuel

variable [DecidableEq Ptr] [Fintype Ptr]

theorem asGap_some (h : Segments s (a :: rest)) (hw : w.base + w.len < word) :
    asGap s w = if w.ahHi = true then
        downLoop s w a (Fintype.card Ptr) (s.sPrev a) w.hibound ⟨false, w.base, w.len⟩
      else upLoop s w a (Fintype.card Ptr) a w.base ⟨false, w.base, w.len⟩ := by
  have hhibound : ¬ w.hibound < w.base := by
    rw [GapArgs.hibound, add_eq hw]
    omega
  have hhead : s.aSegs = some a := h.head
  unfold asGap
  rw [if_neg hhibound, hhead]

omit [DecidableEq Ptr] in
theorem Segments.length_le (h : Segments s cells) : cells.length ≤ Fintype.card Ptr :=
  h.circle.nodup.length_le_card

theorem asGap_lo (h : Segments s (a :: rest)) (hw : w.base + w.len < word) (hdir : w.ahHi = false) :
    ∃ g, asGap s w = some g ∧ Finds s (a :: rest) w g := by
  rw [asGap_some h hw, hdir, if_neg Bool.false_ne_true]
  exact upLoop_finds (show Segments s ([] ++ a :: rest) from h) rfl hw hdir climbed_start
    Bool.false_ne_true h.length_le

theorem asGap_hi_alone (h : Segments s [a]) (hw : w.base + w.len < word) (hdir : w.ahHi = true) :
    ∃ g, asGap s w = some g ∧ Finds s [a] w g := by
  have hprev : s.sPrev a = a := (show Circle s.sNext s.sPrev ([] ++ a :: []) from h.circle).prev_eq
  have hway : WayBack s a ([] ++ [a]) := by
    constructor
    · intro p rest heq
      rw [← (cons.inj heq).1]
      exact hprev
    · intro front q p back heq
      have hlength := congrArg length heq
      simp only [length_append, length_cons, length_nil] at hlength
      omega
  rw [asGap_some h hw, if_pos hdir, hprev]
  exact downLoop_all (show Row s ([] ++ [a]) from h.toRow) hway hw hdir Bool.false_ne_true h.length_le

/-- From high to low it is right as far as the first segment makes no difference. -/
theorem asGap_hi (h : Segments s (a :: c :: rest)) (hw : w.base + w.len < word) (hdir : w.ahHi = true) :
    ∃ g, asGap s w = some g ∧ Finds s (c :: rest) w g := by
  obtain ⟨front, seg, hcells⟩ : ∃ front seg, c :: rest = front ++ [seg] :=
    ⟨_, _, (dropLast_append_getLast (cons_ne_nil c rest)).symm⟩
  have hway := h.wayBack
  have hrow : Row s (c :: rest) := (show Row s ([a] ++ c :: rest) from h.toRow).of_append
  have hlength := h.length_le
  have hprev := (show Circle s.sNext s.sPrev ([] ++ a :: c :: rest) from h.circle).prev_eq
  rw [hcells] at hway hrow hprev ⊢
  rw [length_cons, hcells, length_append, length_singleton] at hlength
  rw [append_nil, getLastD_concat] at hprev
  rw [asGap_some h hw, if_pos hdir, hprev]
  exact downLoop_all hrow hway hw hdir Bool.false_ne_true (by omega)

/-- The searches that go wrong. -/
inductive Missed (s : As Ptr) (w : GapArgs) : List Ptr → Prop
  /-- The window reaches the end of the addresses, and is taken for none. -/
  | wraps {cells : List Ptr} {b n : Nat} : word ≤ w.base + w.len → Wanted s cells w b n →
      Missed s w cells
  /-- Without segments the address that is to be in the hole is not looked at. -/
  | empty : w.base + w.len < word → w.ahContain = true → w.minlen ≤ w.len →
      ¬ (w.base ≤ w.addr ∧ w.addr < w.base + w.len) → Missed s w []
  /-- From high to low the first segment is skipped. -/
  | first {a c : Ptr} {rest : List Ptr} : w.base + w.len < word → w.ahHi = true →
      Skipped s w a c rest → Missed s w (a :: c :: rest)

theorem asGap_wraps (hbase : w.base < word) (hlen : w.len < word) (hwraps : word ≤ w.base + w.len) :
    asGap s w = some ⟨false, w.base, w.len⟩ := by
  have hhibound : w.hibound < w.base := by
    unfold GapArgs.hibound add word at *
    omega
  exact if_pos hhibound

omit [DecidableEq Ptr] [Fintype Ptr] in
theorem wanted_nil (hw : w.base + w.len < word) :
    Wanted s [] w b n ↔ b = w.base ∧ n = w.len ∧ w.minlen ≤ w.len ∧
      (w.ahContain = true → w.base ≤ w.addr ∧ w.addr < w.base + w.len) := by
  have htop : w.top = w.base + w.len := if_pos hw
  constructor
  · rintro ⟨⟨-, -, -, hbelow, habove⟩, henough, hcontains⟩
    have hb : b = w.base := hbelow.resolve_right fun ⟨p, hp, _⟩ => absurd hp not_mem_nil
    have hn : b + n = w.top := habove.resolve_right fun ⟨p, hp, _⟩ => absurd hp not_mem_nil
    have hlen : n = w.len := by omega
    rw [hlen] at henough hcontains
    exact ⟨hb, hlen, henough, hb ▸ hcontains⟩
  · rintro ⟨rfl, rfl, henough, hcontains⟩
    exact ⟨⟨le_rfl, htop.ge, nofun, .inl rfl, .inl htop.symm⟩, henough, hcontains⟩

theorem asGap_none (h : Segments s []) (hw : w.base + w.len < word) :
    asGap s w = some ⟨decide (w.minlen ≤ w.len), w.base, w.len⟩ := by
  have hhibound : w.hibound = w.base + w.len := add_eq hw
  have hhead : s.aSegs = none := h.head
  have hsub : sub (w.base + w.len) w.base = w.len := by
    rw [sub_eq (by omega) hw]
    omega
  have hvalid : validVaRange w.base w.len w.minlen ↔ w.minlen ≤ w.len := by
    unfold validVaRange
    rw [add_eq hw, hsub]
    omega
  unfold asGap
  rw [if_neg (by omega), hhead]
  simp only [hvalid]

/-- `as_gap` finds the hole that it is to find, but for the searches that go wrong. -/
theorem asGap_finds_iff (h : Segments s cells) (hbase : w.base < word) (hlen : w.len < word) :
    (∃ g, asGap s w = some g ∧ Finds s cells w g) ↔ ¬ Missed s w cells := by
  by_cases hw : w.base + w.len < word
  · cases cells with
    | nil =>
      rw [asGap_none h hw]
      by_cases henough : w.minlen ≤ w.len
      · by_cases hcontains : w.ahContain = true → w.base ≤ w.addr ∧ w.addr < w.base + w.len
        · have hwanted : Wanted s [] w w.base w.len := (wanted_nil hw).mpr ⟨rfl, rfl, henough, hcontains⟩
          refine iff_of_true ⟨_, rfl, Finds.of_wanted (decide_eq_true henough) hwanted
            fun b n hother => ?_⟩ ?_
          · rw [((wanted_nil hw).mp hother).1, ite_self]
          · rintro (⟨hwraps, -⟩ | ⟨-, hflag, -, hout⟩)
            · exact not_lt.mpr hwraps hw
            · exact hout (hcontains hflag)
        · obtain ⟨hflag, hout⟩ := Classical.not_imp.mp hcontains
          refine iff_of_false ?_ (not_not.mpr (Missed.empty hw hflag henough hout))
          rintro ⟨g, hg, hfinds⟩
          have hfound : g.found = true := by
            rw [← some.inj hg]
            exact decide_eq_true henough
          exact hout (((wanted_nil hw).mp (hfinds.wanted hfound)).2.2.2 hflag)
      · refine iff_of_true ⟨_, rfl, Finds.of_none ?_ fun b n hwanted => ?_⟩ ?_
        · rw [decide_eq_false henough]
          exact Bool.false_ne_true
        · exact henough ((wanted_nil hw).mp hwanted).2.2.1
        · rintro (⟨hwraps, -⟩ | ⟨-, -, henough', -⟩)
          · exact not_lt.mpr hwraps hw
          · exact henough henough'
    | cons a rest =>
      have hfits : ¬ word ≤ w.base + w.len := not_le.mpr hw
      cases hdir : w.ahHi with
      | false =>
        refine iff_of_true (asGap_lo h hw hdir) ?_
        rintro (⟨hwraps, -⟩ | _ | ⟨-, hhi, -⟩)
        · exact hfits hwraps
        · exact Bool.noConfusion (hdir.symm.trans hhi)
      | true =>
        cases rest with
        | nil =>
          refine iff_of_true (asGap_hi_alone h hw hdir) ?_
          rintro ⟨hwraps, -⟩
          exact hfits hwraps
        | cons c rest =>
          obtain ⟨g, hg, hfinds⟩ := asGap_hi h hw hdir
          have hiff := h.finds_iff hw hdir hfinds
          rw [hg]
          constructor
          · rintro ⟨g', hg', hright⟩ (⟨hwraps, -⟩ | _ | ⟨-, -, hskipped⟩)
            · exact hfits hwraps
            · exact hiff.mp ((some.inj hg') ▸ hright) hskipped
          · exact fun hmissed =>
              ⟨g, rfl, hiff.mpr fun hskipped => hmissed (Missed.first hw hdir hskipped)⟩
  · have hwraps : word ≤ w.base + w.len := not_lt.mp hw
    rw [asGap_wraps hbase hlen hwraps]
    constructor
    · rintro ⟨g, hg, hfinds⟩ (⟨-, hwanted⟩ | ⟨hw', -⟩ | ⟨hw', -⟩)
      · have hfound := hfinds.found.mpr ⟨_, _, hwanted⟩
        rw [← some.inj hg] at hfound
        exact Bool.false_ne_true hfound
      · exact hw hw'
      · exact hw hw'
    · exact fun hmissed => ⟨_, rfl, Finds.of_none Bool.false_ne_true fun b n hwanted =>
        hmissed (Missed.wraps hwraps hwanted)⟩

/-- Two pages are mapped. -/
def twoPages : As Bool where
  aSegs := some false
  aSeglast := none
  sBase p := if p = true then 0x5000 else 0x1000
  sSize _ := 0x1000
  sNext := Bool.not
  sPrev := Bool.not
  used _ := true

theorem twoPages_segments : Segments twoPages [false, true] where
  sorted := by decide
  bytes := by decide
  fits := by decide
  head := rfl
  circle := ⟨⟨⟨rfl, rfl⟩, rfl, rfl⟩, by decide⟩

theorem asGap_finds_iff_low : ∃ g, asGap twoPages ⟨0x1000, 0x8000, 0x1000, false, false, 0⟩ = some g ∧
    Finds twoPages [false, true] ⟨0x1000, 0x8000, 0x1000, false, false, 0⟩ g := by
  refine (asGap_finds_iff twoPages_segments (by decide) (by decide)).mpr ?_
  rintro (⟨hwraps, -⟩ | _ | ⟨-, hhi, -⟩)
  · exact absurd hwraps (by decide)
  · cases hhi

/-- What is returned has the first page in it. -/
theorem asGap_maps_over : ¬ ∃ g, asGap twoPages ⟨0x1000, 0x4000, 0x4000, true, false, 0⟩ = some g ∧
      Finds twoPages [false, true] ⟨0x1000, 0x4000, 0x4000, true, false, 0⟩ g := by
  rintro ⟨g, hg, hfinds⟩
  have hrun : asGap twoPages ⟨0x1000, 0x4000, 0x4000, true, false, 0⟩ =
      some ⟨true, 0x1000, 0x4000⟩ := by decide
  rw [hrun] at hg
  rw [← some.inj hg] at hfinds
  have hend : twoPages.sEnd false = 0x2000 := rfl
  have hbase : twoPages.sBase false = 0x1000 := rfl
  rcases (hfinds.wanted rfl).hole.clear false (.head _) with ⟨hbehind, -⟩ | ⟨-, hahead⟩
  · rw [hend] at hbehind
    exact absurd hbehind (by decide)
  · rw [hbase] at hahead
    exact absurd hahead (by decide)

end Svr42.Seg
