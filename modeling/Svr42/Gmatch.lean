import Mathlib.Computability.Language

/-! `gmatch` in a single-byte locale. A string is the list of its bytes before the terminator. -/

namespace Svr42.Gmatch
open List Nat Prod

abbrev Str := List UInt8

def bang : UInt8 := 33
def star : UInt8 := 42
def dash : UInt8 := 45
def quest : UInt8 := 63
def lbrack : UInt8 := 91
def bslash : UInt8 := 92
def rbrack : UInt8 := 93

/-! ### The routine -/

def deref (p : Str) : UInt8 := p.headD 0

/-- A backslash stands for the character after it. -/
def unquote (c : UInt8) (p : Str) : Option (UInt8 × Str) :=
  if c = bslash then p.head?.map fun c => (c, p.tail) else some (c, p)

/-- What one round of the loop over a list reads: the low end if this is a range, a character and the rest. -/
def element (lc c : UInt8) (p : Str) : Option (Option UInt8 × UInt8 × Str) :=
  if c = dash ∧ lc ≠ 0 ∧ deref p ≠ rbrack then
    p.head?.bind fun c => (unquote c p.tail).map fun q => (some lc, q)
  else (unquote c p).map fun q => (none, q)

/-- In a list with `!` a hit ends the match; in one without, hits are counted. -/
def test (notflag hit : Bool) (ok : Nat) : Option Nat :=
  if notflag then (if hit then none else some (ok + 1)) else some (if hit then ok + 1 else ok)

def tests (notflag : Bool) (scc : UInt8) (lo : Option UInt8) (c : UInt8) (ok : Nat) : Option Nat :=
  match lo with
  | some lo => (test notflag (decide (lo ≤ scc ∧ scc ≤ c)) ok).bind (test notflag (decide (scc = c)))
  | none => test notflag (decide (scc = c)) ok

theorem unquote_length {c d : UInt8} {p q : Str} (h : unquote c p = some (d, q)) : q.length ≤ p.length := by
  unfold unquote at h
  split_ifs at h
  · cases p with
    | nil => cases h
    | cons a p =>
      obtain ⟨-, rfl⟩ := mk.inj (Option.some.inj h)
      exact le_succ _
  · obtain ⟨-, rfl⟩ := mk.inj (Option.some.inj h)
    exact le_rfl

theorem element_length {lc c d : UInt8} {lo : Option UInt8} {p q : Str} (h : element lc c p = some (lo, d, q)) :
    q.length ≤ p.length := by
  unfold element at h
  split_ifs at h
  · cases p with
    | nil => cases h
    | cons a p =>
      obtain ⟨r, hr, heq⟩ := Option.map_eq_some_iff.mp h
      obtain ⟨-, rfl⟩ := mk.inj heq
      exact (unquote_length hr).trans (le_succ _)
  · obtain ⟨r, hr, heq⟩ := Option.map_eq_some_iff.mp h
    obtain ⟨-, rfl⟩ := mk.inj heq
    exact unquote_length hr

/-- The loop over a list with the character `c` read: the number of hits and what follows the list. -/
def listLoop (notflag : Bool) (scc lc c : UInt8) (ok : Nat) (p : Str) : Option (Nat × Str) :=
  match _h : element lc c p with
  | none => none
  | some (_, _, []) => none
  | some (lo, c, c' :: q) =>
      match tests notflag scc lo c ok with
      | none => none
      | some ok => if c' = rbrack then some (ok, q) else listLoop notflag scc c c' ok q
termination_by p.length
decreasing_by
  have hlen := element_length _h
  rw [length_cons] at hlen
  omega

def bracket (scc : UInt8) (p : Str) : Option (Nat × Str) :=
  let notflag := decide (deref p = bang)
  let p := if deref p = bang then p.tail else p
  match p with
  | [] => none
  | c :: p => listLoop notflag scc 0 c 0 p

/-- The loop over what a `*` can stand for. -/
def starLoop (f : Str → Bool) : Str → Bool
  | [] => false
  | c :: s => f (c :: s) || starLoop f s

theorem listLoop_length {notflag : Bool} {scc lc c : UInt8} {ok n : Nat} {p q : Str}
    (h : listLoop notflag scc lc c ok p = some (n, q)) : q.length < p.length := by
  fun_induction listLoop notflag scc lc c ok p with
  | case1 | case2 | case3 => cases h
  | case4 lc c ok p lo d q' ok' htest hel =>
    obtain ⟨-, rfl⟩ := mk.inj (Option.some.inj h)
    have hlen := element_length hel
    rw [length_cons] at hlen
    omega
  | case5 lc c ok p lo d c' q' hel ok' htest hend ih =>
    have hlen := element_length hel
    have hrest := ih h
    rw [length_cons] at hlen
    omega

theorem bracket_length {scc : UInt8} {n : Nat} {p q : Str} (h : bracket scc p = some (n, q)) :
    q.length < p.length := by
  unfold bracket at h
  dsimp only at h
  split_ifs at h
  · split at h
    · cases h
    · rename_i c r hr
      have hlen := listLoop_length h
      have htail := congrArg length hr
      rw [length_tail, length_cons] at htail
      omega
  · split at h
    · cases h
    · exact (listLoop_length h).trans (lt_succ_self _)

theorem dropWhile_length (f : UInt8 → Bool) (p : Str) : (p.dropWhile f).length ≤ p.length :=
  (dropWhile_suffix f).length_le

/-- The subject is over where `scc` is zero. -/
def gmatch (s p : Str) : Bool :=
  match p with
  | [] => decide (deref s = 0)
  | c :: p =>
      if c = lbrack then
        if deref s = 0 then false
        else
          match _h : bracket (deref s) p with
          | none => false
          | some (ok, q) => if ok ≠ 0 then gmatch s.tail q else false
      else if c = quest then (if deref s ≠ 0 then gmatch s.tail p else false)
      else if c = star then
        if p.dropWhile (· = star) = [] then true
        else starLoop (fun s => gmatch s (p.dropWhile (· = star))) s
      else
        match _h : unquote c p with
        | none => false
        | some (c, q) => if c ≠ deref s then false else if deref s ≠ 0 then gmatch s.tail q else false
termination_by p.length
decreasing_by
  · exact Nat.lt_succ_of_lt (bracket_length _h)
  · exact Nat.lt_succ_self _
  · exact Nat.lt_succ_of_le (dropWhile_length _ _)
  · exact Nat.lt_succ_of_le (unquote_length _h)

/-! ### Patterns -/

/-- A character of a pattern, quoted with a backslash or not. -/
structure Chr where
  quoted : Bool
  c : UInt8

inductive Item where
  | one (x : Chr)
  | range (lo hi : Chr)

inductive Elem where
  | chr (x : Chr)
  | any
  | all
  | list (notflag : Bool) (items : List Item)

def Chr.head (x : Chr) : UInt8 := if x.quoted = true then bslash else x.c
def Chr.tail (x : Chr) : Str := if x.quoted = true then [x.c] else []
def Chr.text (x : Chr) : Str := x.head :: x.tail

def Item.text : Item → Str
  | .one x => x.text
  | .range lo hi => lo.text ++ dash :: hi.text

def Elem.text : Elem → Str
  | .chr x => x.text
  | .any => [quest]
  | .all => [star]
  | .list notflag items =>
      lbrack :: ((if notflag = true then [bang] else []) ++ (items.flatMap Item.text ++ [rbrack]))

def text (p : List Elem) : Str := p.flatMap Elem.text

def Chr.Plain (x : Chr) (c : UInt8) : Prop := x.quoted = false ∧ x.c = c

def Item.fst : Item → Chr
  | .one x => x
  | .range lo _ => lo

/-- Characters of a list: a `]` is plain only at its beginning. -/
def Chr.Ok (first : Bool) (x : Chr) : Prop :=
  x.c ≠ 0 ∧ ¬ x.Plain bslash ∧ (first = false → ¬ x.Plain rbrack)

/-- A `-` is plain only at the beginning or the end of a list, or as the high end of a range. -/
def ItemsOk : Bool → List Item → Prop
  | _, [] => True
  | first, .one x :: items =>
      x.Ok first ∧ (x.Plain dash → first = true ∨ items = []) ∧ ItemsOk false items
  | first, .range lo hi :: items =>
      lo.Ok first ∧ (lo.Plain dash → first = true) ∧ hi.Ok false ∧ lo.c ≤ hi.c ∧ ItemsOk false items

def Elem.Ok : Elem → Prop
  | .chr x => x.c ≠ 0 ∧ (x.quoted = false → x.c ∉ [lbrack, bslash, quest, star])
  | .any => True
  | .all => True
  | .list notflag items =>
      items ≠ [] ∧ ItemsOk true items ∧ (notflag = false → ∀ x ∈ items.head?, ¬ x.fst.Plain bang)

def Item.Has (c : UInt8) : Item → Prop
  | .one x => c = x.c
  | .range lo hi => lo.c ≤ c ∧ c ≤ hi.c

/-- The set of strings that an element stands for. -/
def Elem.lang : Elem → Language UInt8
  | .chr x => {[x.c]}
  | .any => {s | s.length = 1}
  | .all => ⊤
  | .list notflag items => {s | ∃ c, s = [c] ∧ ((∃ i ∈ items, i.Has c) ↔ notflag = false)}

def lang (p : List Elem) : Language UInt8 := (p.map Elem.lang).prod

/-! ### Lists -/

variable {notflag first : Bool} {scc lc c d : UInt8} {lo : Option UInt8} {ok : Nat} {p q r s : Str} {x hi : Chr}
  {i : Item} {items : List Item} {e : Elem} {es : List Elem}

theorem Chr.head_ne (hne : c ≠ bslash) (h : ¬ x.Plain c) : x.head ≠ c := by
  unfold Chr.head
  split_ifs with hq
  · exact hne.symm
  · exact fun heq => h ⟨Bool.eq_false_iff.mpr hq, heq⟩

theorem unquote_text (h : ¬ x.Plain bslash) : unquote x.head (x.tail ++ q) = some (x.c, q) := by
  unfold unquote Chr.head Chr.tail
  by_cases hq : x.quoted = true
  · rw [if_pos hq, if_pos hq, if_pos rfl]
    rfl
  · rw [if_neg hq, if_neg hq, if_neg fun heq => h ⟨Bool.eq_false_iff.mpr hq, heq⟩]
    rfl

theorem element_one (h : x.Ok first) (hdash : x.Plain dash → lc = 0 ∨ deref q = rbrack) :
    element lc x.head (x.tail ++ q) = some (none, x.c, q) := by
  unfold element
  rw [if_neg, unquote_text h.2.1]
  · rfl
  · rintro ⟨hhead, hlc, hend⟩
    have hplain : x.Plain dash := by
      by_contra hno
      exact Chr.head_ne (by decide) hno hhead
    rw [Chr.tail, if_neg (Bool.eq_false_iff.mp hplain.1), nil_append] at hend
    exact (hdash hplain).elim hlc hend

theorem element_range (hlc : lc ≠ 0) (h : hi.Ok false) :
    element lc dash (hi.text ++ q) = some (some lc, hi.c, q) := by
  unfold element
  rw [if_pos ⟨rfl, hlc, Chr.head_ne (by decide) (h.2.2 rfl)⟩]
  change (unquote hi.head (hi.tail ++ q)).map _ = _
  rw [unquote_text h.2.1]
  rfl

/-- What is done after a round: the list ends, or the next round begins. -/
def after (notflag : Bool) (scc lc : UInt8) (ok : Nat) : Str → Option (Nat × Str)
  | [] => none
  | c :: q => if c = rbrack then some (ok, q) else listLoop notflag scc lc c ok q

theorem listLoop_step (h : element lc c p = some (lo, d, q)) : listLoop notflag scc lc c ok p =
    (tests notflag scc lo d ok).bind fun ok => after notflag scc d ok q := by
  rw [listLoop]
  split
  · rename_i hnone
    rw [h] at hnone
    cases hnone
  · rename_i hnil
    obtain ⟨rfl, rfl, rfl⟩ := mk.inj (Option.some.inj (h.symm.trans hnil)) |>.imp id mk.inj
    cases tests notflag scc lo d ok <;> rfl
  · rename_i hcons
    obtain ⟨rfl, rfl, rfl⟩ := mk.inj (Option.some.inj (h.symm.trans hcons)) |>.imp id mk.inj
    cases tests notflag scc lo d ok <;> rfl

/-- The hits of a list's items: the ends of a range are also tried by themselves. -/
def count (notflag : Bool) (scc : UInt8) : List Item → Nat → Option Nat
  | [], ok => some ok
  | .one x :: items, ok => (tests notflag scc none x.c ok).bind (count notflag scc items)
  | .range lo hi :: items, ok =>
      (tests notflag scc none lo.c ok).bind fun ok =>
        (tests notflag scc (some lo.c) hi.c ok).bind (count notflag scc items)

def itemsText (items : List Item) (r : Str) : Str := items.flatMap Item.text ++ rbrack :: r

/-- The rest of an item after the first character of its text, with the items after it. -/
def Item.rest : Item → Str → Str
  | .one x, q => x.tail ++ q
  | .range lo hi, q => lo.tail ++ dash :: (hi.text ++ q)

theorem itemsText_cons : itemsText (i :: items) r = i.fst.head :: i.rest (itemsText items r) := by
  cases i <;> simp [itemsText, Item.text, Item.fst, Item.rest, Chr.text]

theorem listLoop_item (hok : ItemsOk first (i :: items)) (hlc : first = true → lc = 0)
    (ih : ∀ lc ok, lc ≠ 0 → after notflag scc lc ok (itemsText items r) =
      (count notflag scc items ok).map (·, r)) :
    listLoop notflag scc lc i.fst.head ok (i.rest (itemsText items r)) =
      (count notflag scc (i :: items) ok).map (·, r) := by
  cases i with
  | one x =>
    obtain ⟨hx, hdash, -⟩ := hok
    have hel : element lc x.head (x.tail ++ itemsText items r) = some (none, x.c, itemsText items r) := by
      refine element_one hx fun hplain => (hdash hplain).imp hlc fun hnil => ?_
      rw [hnil]
      rfl
    rw [Item.rest, Item.fst, listLoop_step hel, count, Option.map_bind]
    exact congrArg _ (funext fun ok => ih x.c ok hx.1)
  | range lo hi =>
    obtain ⟨hlo, hdash, hhi, hle, -⟩ := hok
    have hel : element lc lo.head (lo.tail ++ dash :: (hi.text ++ itemsText items r)) =
        some (none, lo.c, dash :: (hi.text ++ itemsText items r)) :=
      element_one hlo fun hplain => .inl (hlc (hdash hplain))
    have hc : hi.c ≠ 0 := hhi.1
    rw [Item.rest, Item.fst, listLoop_step hel, count, Option.map_bind]
    refine congrArg _ (funext fun ok => ?_)
    rw [after, if_neg (by decide), listLoop_step (element_range hlo.1 hhi), Function.comp, Option.map_bind]
    exact congrArg _ (funext fun ok => ih hi.c ok hc)

theorem after_items (hok : ItemsOk false items) (hlc : lc ≠ 0) :
    after notflag scc lc ok (itemsText items r) = (count notflag scc items ok).map (·, r) := by
  induction items generalizing lc ok with
  | nil =>
    change after notflag scc lc ok (rbrack :: r) = some (ok, r)
    rw [after, if_pos rfl]
  | cons i items ih =>
    have hrest : ItemsOk false items ∧ ¬ i.fst.Plain rbrack := by
      cases i with
      | one x => exact ⟨hok.2.2, hok.1.2.2 rfl⟩
      | range lo hi => exact ⟨hok.2.2.2.2, hok.1.2.2 rfl⟩
    rw [itemsText_cons, after, if_neg (Chr.head_ne (by decide) hrest.2)]
    exact listLoop_item hok (fun h => nomatch h) fun lc ok hlc => ih hrest.1 hlc

theorem bracket_eq (h : (Elem.list notflag items).Ok) :
    bracket scc ((if notflag = true then [bang] else []) ++ itemsText items r) =
      (count notflag scc items 0).map (·, r) := by
  obtain ⟨hne, hok, hbang⟩ := h
  cases items with
  | nil => exact absurd rfl hne
  | cons i items =>
    have hrest : ItemsOk false items := by
      cases i with
      | one x => exact hok.2.2
      | range lo hi => exact hok.2.2.2.2
    have hloop : listLoop notflag scc 0 i.fst.head 0 (i.rest (itemsText items r)) =
        (count notflag scc (i :: items) 0).map (·, r) :=
      listLoop_item hok (fun _ => rfl) fun lc ok hlc => after_items hrest hlc
    rw [← hloop, itemsText_cons]
    cases notflag with
    | true => rfl
    | false =>
      have hhead : deref (i.fst.head :: i.rest (itemsText items r)) ≠ bang :=
        Chr.head_ne (by decide) (hbang rfl i rfl)
      rw [if_neg Bool.false_ne_true, nil_append, bracket, if_neg hhead, decide_eq_false hhead]

theorem hit_range (h : d ≤ c) : (scc = d ∨ (d ≤ scc ∧ scc ≤ c)) ∨ scc = c ↔ d ≤ scc ∧ scc ≤ c := by
  constructor
  · rintro ((rfl | hin) | rfl)
    · exact ⟨UInt8.le_refl _, h⟩
    · exact hin
    · exact ⟨h, UInt8.le_refl _⟩
  · exact fun hin => .inl (.inr hin)

/-- Without `!` every hit counts. -/
theorem count_false (h : ItemsOk first items) :
    (∃ n, count false scc items ok = some n ∧ n ≠ 0) ↔ ok ≠ 0 ∨ ∃ i ∈ items, i.Has scc := by
  have htest : ∀ (p : Prop) [Decidable p] (ok : Nat), ∃ n, test false (decide p) ok = some n ∧ (n ≠ 0 ↔ ok ≠ 0 ∨ p) := by
    intro p _ ok
    by_cases hp : p
    · exact ⟨ok + 1, by simp [test, hp], by simp [hp]⟩
    · exact ⟨ok, by simp [test, hp], by simp [hp]⟩
  induction items generalizing ok first with
  | nil => simp [count]
  | cons i items ih =>
    rw [exists_mem_cons_iff]
    cases i with
    | one x =>
      obtain ⟨n, hn, hiff⟩ := htest (scc = x.c) ok
      rw [count, tests, hn, Option.bind_some]
      refine (ih h.2.2).trans ?_
      rw [hiff, or_assoc, Item.Has]
    | range lo hi =>
      obtain ⟨n, hn, hiff⟩ := htest (scc = lo.c) ok
      obtain ⟨m, hm, hmiff⟩ := htest (lo.c ≤ scc ∧ scc ≤ hi.c) n
      obtain ⟨k, hk, hkiff⟩ := htest (scc = hi.c) m
      rw [count, tests, hn, Option.bind_some, tests, hm, Option.bind_some, hk, Option.bind_some]
      refine (ih h.2.2.2.2).trans ?_
      rw [hkiff, hmiff, hiff, Item.Has]
      conv_rhs => rw [← hit_range h.2.2.2.1]
      simp only [or_assoc]

theorem count_true (h : ItemsOk first items) : (∃ n, count true scc items ok = some n ∧ n ≠ 0) ↔
      (ok ≠ 0 ∨ items ≠ []) ∧ ∀ i ∈ items, ¬ i.Has scc := by
  have htest : ∀ (p : Prop) [Decidable p] (ok : Nat) (f : Nat → Option Nat),
      (∃ n, (test true (decide p) ok).bind f = some n ∧ n ≠ 0) ↔ ¬ p ∧ ∃ n, f (ok + 1) = some n ∧ n ≠ 0 := by
    intro p _ ok f
    by_cases hp : p <;> simp [test, hp]
  induction items generalizing ok first with
  | nil => simp [count]
  | cons i items ih =>
    rw [forall_mem_cons]
    cases i with
    | one x =>
      rw [count, tests, htest]
      refine (and_congr_right' (ih h.2.2)).trans ?_
      rw [Item.Has]
      simp
    | range lo hi =>
      rw [count, tests, htest, tests, Option.bind_assoc, htest, htest]
      refine (and_congr_right' (and_congr_right' (and_congr_right' (ih h.2.2.2.2)))).trans ?_
      rw [Item.Has, ← hit_range h.2.2.2.1]
      simp [and_assoc]

/-! ### Matching -/

theorem lang_length (he : e ≠ .all) (h : s ∈ e.lang) : s.length = 1 := by
  cases e with
  | chr x => exact congrArg length h
  | any => exact h
  | all => exact absurd rfl he
  | list notflag items =>
    obtain ⟨c, rfl, -⟩ := h
    rfl

theorem mem_lang_cons (he : e ≠ .all) : s ∈ lang (e :: es) ↔ ∃ c t, s = c :: t ∧ [c] ∈ e.lang ∧ t ∈ lang es := by
  unfold lang
  rw [map_cons, prod_cons, Language.mem_mul]
  constructor
  · rintro ⟨a, ha, b, hb, rfl⟩
    obtain ⟨c, rfl⟩ := length_eq_one_iff.mp (lang_length he ha)
    exact ⟨c, b, rfl, ha, hb⟩
  · rintro ⟨c, t, rfl, hc, ht⟩
    exact ⟨[c], hc, t, ht, rfl⟩

theorem deref_ne_zero (hs : (0 : UInt8) ∉ s) : deref s ≠ 0 ↔ s ≠ [] := by
  cases s with
  | nil => simp [deref]
  | cons c s =>
    have hc : c ≠ 0 := fun heq => hs (heq ▸ (.head _))
    simpa [deref] using hc

theorem count_iff (h : (Elem.list notflag items).Ok) :
    (∃ n, count notflag scc items 0 = some n ∧ n ≠ 0) ↔ ((∃ i ∈ items, i.Has scc) ↔ notflag = false) := by
  cases notflag with
  | true =>
    refine (count_true h.2.1).trans ?_
    simp [h.1]
  | false =>
    refine (count_false h.2.1).trans ?_
    simp

theorem gmatch_list (hs : deref s ≠ 0) (h : bracket (deref s) p = (count notflag (deref s) items 0).map (·, q)) :
    gmatch s (lbrack :: p) = true ↔
      (∃ n, count notflag (deref s) items 0 = some n ∧ n ≠ 0) ∧ gmatch s.tail q = true := by
  rw [gmatch, if_pos rfl, if_neg hs]
  split
  · rename_i hnone
    rw [h, Option.map_eq_none_iff] at hnone
    simp [hnone]
  · rename_i n q' hsome
    rw [h] at hsome
    obtain ⟨n', hn, heq⟩ := Option.map_eq_some_iff.mp hsome
    obtain ⟨rfl, rfl⟩ := mk.inj heq
    simp [hn]

theorem gmatch_chr (hbrack : c ≠ lbrack) (hquest : c ≠ quest) (hstar : c ≠ star) (h : unquote c p = some (d, q)) :
    gmatch s (c :: p) = true ↔ d = deref s ∧ deref s ≠ 0 ∧ gmatch s.tail q = true := by
  rw [gmatch, if_neg hbrack, if_neg hquest, if_neg hstar]
  split
  · rename_i hnone
    rw [h] at hnone
    cases hnone
  · rename_i d' q' hsome
    obtain ⟨rfl, rfl⟩ := mk.inj (Option.some.inj (h.symm.trans hsome))
    simp

/-- One step of the routine for each kind of element. -/
theorem gmatch_cons (he : e ≠ .all) (hok : e.Ok) (hs : (0 : UInt8) ∉ s) :
    gmatch s (e.text ++ q) = true ↔ ∃ c t, s = c :: t ∧ [c] ∈ e.lang ∧ gmatch t q = true := by
  have hnil : deref ([] : Str) = 0 := rfl
  cases e with
  | all => exact absurd rfl he
  | any =>
    change gmatch s (quest :: q) = true ↔ _
    rw [gmatch, if_neg (by decide), if_pos rfl]
    cases s with
    | nil => simp [hnil]
    | cons c t =>
      rw [if_pos ((deref_ne_zero hs).mpr (cons_ne_nil c t))]
      constructor
      · exact fun h => ⟨c, t, rfl, rfl, h⟩
      · rintro ⟨c', t', heq, -, h⟩
        rw [(cons.inj heq).2]
        exact h
  | chr x =>
    have hplain : ∀ c ∈ [lbrack, bslash, quest, star], ¬ x.Plain c :=
      fun c hc hx => hok.2 hx.1 (hx.2 ▸ hc)
    change gmatch s (x.head :: (x.tail ++ q)) = true ↔ _
    rw [gmatch_chr (Chr.head_ne (by decide) (hplain _ (by simp))) (Chr.head_ne (by decide) (hplain _ (by simp)))
      (Chr.head_ne (by decide) (hplain _ (by simp))) (unquote_text (hplain bslash (by simp))), deref_ne_zero hs]
    cases s with
    | nil => simp
    | cons c t =>
      constructor
      · rintro ⟨hc, -, h⟩
        exact ⟨c, t, rfl, congrArg (fun c => [c]) hc.symm, h⟩
      · rintro ⟨c', t', heq, hc, h⟩
        obtain ⟨rfl, rfl⟩ := cons.inj heq
        exact ⟨(cons.inj hc).1.symm, cons_ne_nil _ _, h⟩
  | list notflag items =>
    have htext : (Elem.list notflag items).text ++ q =
        lbrack :: ((if notflag = true then [bang] else []) ++ itemsText items q) := by
      simp [Elem.text, itemsText]
    rw [htext]
    cases s with
    | nil =>
      rw [gmatch, if_pos rfl, if_pos hnil]
      simp
    | cons c t =>
      rw [gmatch_list ((deref_ne_zero hs).mpr (cons_ne_nil c t)) (bracket_eq hok), count_iff hok]
      constructor
      · rintro ⟨hhit, h⟩
        exact ⟨c, t, rfl, ⟨c, rfl, hhit⟩, h⟩
      · rintro ⟨c', t', heq, ⟨d, hd, hhit⟩, h⟩
        obtain ⟨rfl, rfl⟩ := cons.inj heq
        obtain ⟨rfl, -⟩ := cons.inj hd
        exact ⟨hhit, h⟩

/-! ### Stars -/

def Elem.isAll : Elem → Bool
  | .all => true
  | _ => false

theorem ne_all (h : ¬ e.isAll = true) : e ≠ .all := fun heq => h (heq ▸ rfl)

theorem eq_all (h : e.isAll = true) : e = .all := by
  cases e with
  | all => rfl
  | _ => exact absurd h Bool.false_ne_true

theorem starLoop_iff {f : Str → Bool} : starLoop f s = true ↔ ∃ u v, s = u ++ v ∧ v ≠ [] ∧ f v = true := by
  induction s with
  | nil => simp [starLoop]
  | cons c s ih =>
    rw [starLoop, Bool.or_eq_true, ih]
    constructor
    · rintro (h | ⟨u, v, rfl, hv⟩)
      · exact ⟨[], c :: s, rfl, cons_ne_nil c s, h⟩
      · exact ⟨c :: u, v, rfl, hv⟩
    · rintro ⟨u, v, heq, hv⟩
      cases u with
      | nil => exact .inl (heq ▸ hv.2)
      | cons d u => exact .inr ⟨u, v, (cons.inj heq).2, hv⟩

theorem text_ne_star (he : ¬ e.isAll = true) (hok : e.Ok) : ∃ c t, e.text = c :: t ∧ c ≠ star := by
  cases e with
  | chr x =>
    exact ⟨x.head, x.tail, rfl, Chr.head_ne (by decide) fun h => hok.2 h.1 (by simp [h.2])⟩
  | any => exact ⟨quest, [], rfl, by decide⟩
  | all => exact absurd rfl he
  | list notflag items => exact ⟨lbrack, _, rfl, by decide⟩

theorem text_dropWhile (hok : ∀ e ∈ es, e.Ok) : (text es).dropWhile (· = star) = text (es.dropWhile Elem.isAll) := by
  induction es with
  | nil => rfl
  | cons e es ih =>
    by_cases he : e.isAll = true
    · obtain rfl : e = .all := eq_all he
      change (star :: text es).dropWhile _ = _
      rw [dropWhile_cons_of_pos (by simp), dropWhile_cons_of_pos rfl, ih fun e he => hok e (.tail _ he)]
    · obtain ⟨c, t, htext, hc⟩ := text_ne_star he (hok e (.head _))
      rw [dropWhile_cons_of_neg he]
      unfold text
      rw [flatMap_cons, htext, cons_append, dropWhile_cons_of_neg (by simpa using hc)]

theorem mem_lang_all : s ∈ lang (.all :: es) ↔ ∃ u v, s = u ++ v ∧ v ∈ lang (es.dropWhile Elem.isAll) := by
  have hone : ∀ (s : Str) es, s ∈ lang (.all :: es) ↔ ∃ u v, s = u ++ v ∧ v ∈ lang es := by
    intro s es
    unfold lang
    rw [map_cons, prod_cons, Language.mem_mul]
    exact ⟨fun ⟨u, _, v, hv, heq⟩ => ⟨u, v, heq.symm, hv⟩, fun ⟨u, v, heq, hv⟩ => ⟨u, trivial, v, hv, heq.symm⟩⟩
  induction es generalizing s with
  | nil => exact hone s []
  | cons e es ih =>
    by_cases he : e.isAll = true
    · obtain rfl : e = .all := eq_all he
      rw [dropWhile_cons_of_pos rfl, hone]
      constructor
      · rintro ⟨u, v, rfl, hv⟩
        obtain ⟨u', v', rfl, hv'⟩ := ih.mp hv
        exact ⟨u ++ u', v', (append_assoc _ _ _).symm, hv'⟩
      · exact fun h => ⟨[], s, rfl, ih.mpr h⟩
    · rw [dropWhile_cons_of_neg he, hone]

/-- The routine matches the strings of the pattern's set. -/
theorem gmatch_iff (es : List Elem) (s : Str) (hok : ∀ e ∈ es, e.Ok) (hs : (0 : UInt8) ∉ s) :
    gmatch s (text es) = true ↔ s ∈ lang es := by
  induction hn : es.length using Nat.strong_induction_on generalizing es s with
  | _ n ih =>
    cases es with
    | nil =>
      have hnil : gmatch s [] = true ↔ deref s = 0 := by
        rw [gmatch, decide_eq_true_eq]
      exact hnil.trans (not_iff_not.mp (deref_ne_zero hs))
    | cons e es =>
      subst hn
      have hrest : ∀ e ∈ es, e.Ok := fun e he => hok e (.tail _ he)
      by_cases he : e.isAll = true
      · obtain rfl : e = .all := eq_all he
        have hlen : (es.dropWhile Elem.isAll).length < es.length + 1 :=
          lt_succ_of_le (dropWhile_suffix Elem.isAll).length_le
        have hfirst := head?_dropWhile_not Elem.isAll es
        have hdrop : ∀ e ∈ es.dropWhile Elem.isAll, e.Ok := fun e he =>
          hrest e ((dropWhile_suffix Elem.isAll).subset he)
        change gmatch s (star :: text es) = true ↔ _
        rw [gmatch, if_neg (by decide), if_neg (by decide), if_pos rfl, text_dropWhile hrest, mem_lang_all]
        generalize es.dropWhile Elem.isAll = rest at hlen hfirst hdrop ⊢
        cases rest with
        | nil =>
          rw [if_pos (show text [] = [] from rfl)]
          exact ⟨fun _ => ⟨s, [], (append_nil s).symm, rfl⟩, fun _ => rfl⟩
        | cons e' rest =>
          have he' : ¬ e'.isAll = true := Bool.eq_false_iff.mp hfirst
          obtain ⟨c, t, htext, -⟩ := text_ne_star he' (hdrop e' (.head _))
          have hne : text (e' :: rest) ≠ [] := by
            unfold text
            rw [flatMap_cons, htext]
            exact cons_ne_nil _ _
          rw [if_neg hne, starLoop_iff]
          refine exists_congr fun u => exists_congr fun v => and_congr_right fun heq => ?_
          rw [ih _ hlen (e' :: rest) v hdrop (fun h => hs (heq ▸ mem_append_right u h)) rfl]
          refine and_iff_right_of_imp fun hv => ?_
          obtain ⟨c, t, rfl, -⟩ := (mem_lang_cons (ne_all he')).mp hv
          exact cons_ne_nil c t
      · change gmatch s (e.text ++ text es) = true ↔ _
        rw [gmatch_cons (ne_all he) (hok e (.head _)) hs, mem_lang_cons (ne_all he)]
        refine exists_congr fun c => exists_congr fun t => and_congr_right fun heq => and_congr_right' ?_
        exact ih es.length (lt_succ_self _) es t hrest (fun h => hs (heq ▸ .tail c h)) rfl

/-- `[!a-c]*` matches `xy`. -/
theorem gmatch_iff_list : gmatch [120, 121] (text [.list true [.range ⟨false, 97⟩ ⟨false, 99⟩], .all]) = true ↔
    [120, 121] ∈ lang [.list true [.range ⟨false, 97⟩ ⟨false, 99⟩], .all] := by
  refine gmatch_iff _ _ ?_ (by decide)
  simp [Elem.Ok, ItemsOk, Chr.Ok, Chr.Plain, dash, bslash, rbrack]

end Svr42.Gmatch
