import Mathlib.Data.List.TakeDrop
import Svr42.ArgvStr

/-! Which argument vectors come back from `argvtostr` and `strtoargv`. -/

namespace Svr42.ArgvStr
open Bool List Nat Option

variable {isspace : UInt8 → Bool} {malloc : Nat → Bool} {a s x cp rest : Str} {argv args : List Str}
  {c d : UInt8} {fuel i nargs : Nat}

/-! ### The writer -/

theorem copy_of_not_mem (h : d ∉ a) : copy d a = a := by
  induction a with
  | nil => rfl
  | cons c a ih =>
    have hc : c ≠ d := by
      rintro rfl
      exact h (.head _)
    rw [copy, if_neg hc, ih fun hin => h (.tail c hin)]

theorem argText_plain (hnul : 0 ∉ a) (h : ¬ ∃ c ∈ a, c ∈ delim) : argText a = a := by
  rw [argText, escapeOf, if_neg h, if_neg (not_not.mpr rfl), copy_of_not_mem hnul]

theorem argText_quoted (h : ∃ c ∈ a, c ∈ delim) : argText a = dquote :: (copy dquote a ++ [dquote]) := by
  rw [argText, escapeOf, if_pos h, if_pos (by decide)]

def line : List Str → Str
  | [] => []
  | [a] => argText a
  | a :: b :: argv => argText a ++ blank :: line (b :: argv)

theorem argvText_dropLast : (argvText argv).dropLast = line argv := by
  induction argv with
  | nil => rfl
  | cons a argv ih =>
    cases argv with
    | nil => rw [argvText, line, argvText, dropLast_concat]
    | cons b argv =>
      have hne : blank :: argvText (b :: argv) ≠ [] := cons_ne_nil _ _
      have hne' : argvText (b :: argv) ≠ [] := by
        rw [argvText]
        exact append_ne_nil_of_right_ne_nil _ (cons_ne_nil _ _)
      rw [argvText, line, dropLast_append_of_ne_nil hne, dropLast_cons_of_ne_nil hne', ih]

def after : List Str → Str
  | [] => []
  | b :: argv => blank :: line (b :: argv)

theorem line_cons : line (a :: argv) = argText a ++ after argv := by
  cases argv with
  | nil => exact (append_nil _).symm
  | cons b argv => rfl

/-! ### The reader -/

theorem skip_after (hblank : isspace blank = true) :
    (after argv).dropWhile isspace = (line argv).dropWhile isspace := by
  cases argv with
  | nil => rfl
  | cons b argv => exact dropWhile_cons_of_pos hblank

theorem strpbrk_plain (h : ¬ ∃ c ∈ a, c ∈ delim) : strpbrk (a ++ after argv) = (a, after argv) := by
  have hall : ∀ c ∈ a, decide (c ∉ delim) = true := by
    intro c hc
    exact decide_eq_true fun hin => h ⟨c, hc, hin⟩
  rw [strpbrk, span_eq_takeWhile_dropWhile, takeWhile_append_of_pos hall, dropWhile_append_of_pos hall]
  cases argv with
  | nil => rw [after, takeWhile_nil, dropWhile_nil, append_nil]
  | cons b argv =>
    have hblank : ¬ (fun c => decide (c ∉ delim)) blank = true := by decide
    rw [after, takeWhile_cons_of_neg (p := fun c => decide (c ∉ delim)) hblank,
      dropWhile_cons_of_neg (p := fun c => decide (c ∉ delim)) hblank, append_nil]

theorem strpbrk_dquote : strpbrk (dquote :: s) = ([], dquote :: s) := by
  have hquote : ¬ (fun c => decide (c ∉ delim)) dquote = true := by decide
  rw [strpbrk, span_eq_takeWhile_dropWhile,
    takeWhile_cons_of_neg (p := fun c => decide (c ∉ delim)) hquote,
    dropWhile_cons_of_neg (p := fun c => decide (c ∉ delim)) hquote]

theorem quoted_copy : quoted dquote cp (copy dquote a ++ s) = quoted dquote (a.reverse ++ cp) s := by
  induction a generalizing cp with
  | nil => rfl
  | cons c a ih =>
    rw [copy, reverse_cons, append_assoc, singleton_append]
    by_cases hc : c = dquote
    · rw [if_pos hc, cons_append, cons_append, quoted, if_neg (by decide), hc, quoted,
        if_pos rfl, if_pos (by rfl)]
      exact ih
    · rw [if_neg hc, cons_append, quoted, if_neg hc]
      exact ih

theorem quoted_end (h : cp.head? ≠ some backslash) : quoted d cp (d :: s) = some (cp.reverse, s) := by
  rw [quoted, if_pos rfl, if_neg h]

theorem quoted_prefix (hd : d ≠ backslash) (h : quoted d (s ++ d :: cp) rest = some (x, a)) :
    ∃ y, x = (d :: cp).reverse ++ y := by
  induction rest generalizing s with
  | nil => cases h
  | cons c rest ih =>
    rw [quoted] at h
    split_ifs at h with hc hback
    · cases s with
      | nil => exact absurd (some.inj hback) hd
      | cons q s =>
        rw [cons_append, tail_cons, ← cons_append] at h
        exact ih h
    · obtain ⟨rfl, -⟩ := Prod.mk.inj (some.inj h)
      exact ⟨s.reverse, reverse_append⟩
    · rw [← cons_append] at h
      exact ih h

def Kept (isspace : UInt8 → Bool) (a : Str) : Prop :=
  if ∃ c ∈ a, c ∈ delim then a.getLast? ≠ some backslash else ∃ c s, a = c :: s ∧ isspace c = false

/-- The first argument is read and the others are left. -/
def Reads (isspace : UInt8 → Bool) (malloc : Nat → Bool) (fuel i : Nat) (a : Str) (argv : List Str)
    (r : Option (List Str)) : Prop :=
  ∃ nargs, r =
    if after argv = [] ∧ ¬ ∃ c ∈ a, c ∈ delim then some [a]
    else (words isspace malloc fuel (i + 1) nargs ((line argv).dropWhile isspace)).map (a :: ·)

section

variable (hmalloc : ∀ n, malloc n = true)
include hmalloc

theorem words_plain (hblank : isspace blank = true) (hplain : ¬ ∃ c ∈ a, c ∈ delim) (hne : a ≠ []) :
    Reads isspace malloc fuel i a argv (words isspace malloc (fuel + 1) i nargs (a ++ after argv)) := by
  obtain ⟨c, s, rfl⟩ := exists_cons_of_ne_nil hne
  refine ⟨if i ≥ nargs then nargs + BUNCH else nargs, ?_⟩
  rw [cons_append, words, if_neg fun h => absurd h.2 (by rw [hmalloc]; decide), ← cons_append, strpbrk_plain hplain]
  cases argv with
  | nil => exact (if_pos ⟨rfl, hplain⟩).symm
  | cons b argv =>
    have hnot : ¬ (after (b :: argv) = [] ∧ ¬ ∃ c' ∈ c :: s, c' ∈ delim) :=
      fun h => absurd h.1 (cons_ne_nil _ _)
    rw [if_neg hnot, ← skip_after hblank, after]
    dsimp only
    rw [if_neg (by decide), dropWhile_cons_of_pos hblank]

theorem words_dquote :
    words isspace malloc (fuel + 1) i nargs (dquote :: s) = (quoted dquote [] s).bind fun r =>
        (words isspace malloc fuel (i + 1) (if i ≥ nargs then nargs + BUNCH else nargs)
          (r.2.dropWhile isspace)).map (r.1 :: ·) := by
  rw [words, if_neg fun h => absurd h.2 (by rw [hmalloc]; decide), strpbrk_dquote]
  dsimp only
  rw [if_pos (.inl rfl), if_neg (not_not.mpr rfl)]
  cases quoted dquote [] s with
  | none => rfl
  | some r => rfl

theorem words_quoted (hblank : isspace blank = true)
    (hquoted : ∃ c ∈ a, c ∈ delim) (hlast : a.getLast? ≠ some backslash) :
    Reads isspace malloc fuel i a argv
      (words isspace malloc (fuel + 1) i nargs (argText a ++ after argv)) := by
  refine ⟨if i ≥ nargs then nargs + BUNCH else nargs, ?_⟩
  have hnot : ¬ (after argv = [] ∧ ¬ ∃ c ∈ a, c ∈ delim) := fun h => h.2 hquoted
  rw [argText_quoted hquoted, cons_append, append_assoc, singleton_append,
    words_dquote hmalloc, quoted_copy, append_nil, quoted_end (by rw [head?_reverse]; exact hlast),
    if_neg hnot, reverse_reverse, ← skip_after hblank]
  rfl

end

/-! ### The bound on the steps -/

theorem quoted_length (h : quoted d cp s = some (x, rest)) : rest.length < s.length := by
  induction s generalizing cp with
  | nil => cases h
  | cons c s ih =>
    rw [quoted] at h
    split_ifs at h with hc hback
    · exact lt_succ_of_lt (ih h)
    · obtain ⟨-, rfl⟩ := Prod.mk.inj (some.inj h)
      exact lt_succ_self _
    · exact lt_succ_of_lt (ih h)

theorem skip_length : (s.dropWhile isspace).length ≤ s.length := (dropWhile_suffix isspace).length_le

/-- No step is missing. -/
theorem words_enough (h : s.length < fuel) :
    words isspace malloc (fuel + 1) i nargs s = words isspace malloc fuel i nargs s := by
  induction fuel generalizing i nargs s with
  | zero => exact absurd h (not_lt_zero _)
  | succ fuel ih =>
    cases s with
    | nil => rfl
    | cons first s =>
      have hstep : ∀ {t : Str} {i nargs}, t.length ≤ s.length →
          words isspace malloc (fuel + 1) i nargs (t.dropWhile isspace) =
            words isspace malloc fuel i nargs (t.dropWhile isspace) := by
        intro t i nargs ht
        have hskip : (t.dropWhile isspace).length ≤ t.length := skip_length
        rw [length_cons] at h
        exact ih (by omega)
      have hsplit : (strpbrk (first :: s)).1 ++ (strpbrk (first :: s)).2 = first :: s := by
        rw [strpbrk, span_eq_takeWhile_dropWhile]
        exact takeWhile_append_dropWhile
      rw [words, words]
      generalize (if i ≥ nargs then nargs + BUNCH else nargs) = more
      revert hsplit
      generalize strpbrk (first :: s) = r
      obtain ⟨token, tail⟩ := r
      intro hsplit
      have hlength := congrArg length hsplit
      dsimp only at hlength
      rw [length_append, length_cons] at hlength
      cases tail with
      | nil => rfl
      | cons c rest =>
        dsimp only
        rw [length_cons] at hlength
        split_ifs with hmore hquote htoken
        · rfl
        · rw [hstep]
          have hpos := length_pos_of_ne_nil htoken
          rw [length_cons]
          omega
        · cases hr : quoted c [] rest with
          | none => rfl
          | some r =>
            have hrest : r.2.length < rest.length := quoted_length hr
            dsimp only
            rw [hstep (by omega)]
        · rw [hstep (by omega)]

theorem words_more (h : s.length < fuel) (more : Nat) :
    words isspace malloc (fuel + more) i nargs s = words isspace malloc fuel i nargs s := by
  induction more with
  | zero => rfl
  | succ more ih => rw [← Nat.add_assoc, words_enough (by omega), ih]

/-! ### Which arguments come back -/

theorem Kept.reads (hmalloc : ∀ n, malloc n = true) (hblank : isspace blank = true) (hnul : 0 ∉ a)
    (h : Kept isspace a) : Reads isspace malloc fuel i a argv
      (words isspace malloc (fuel + 1) i nargs (argText a ++ after argv)) := by
  by_cases hdelim : ∃ c ∈ a, c ∈ delim
  · rw [Kept, if_pos hdelim] at h
    exact words_quoted hmalloc hblank hdelim h
  rw [Kept, if_neg hdelim] at h
  obtain ⟨c, s, rfl, -⟩ := h
  rw [argText_plain hnul hdelim]
  exact words_plain hmalloc hblank hdelim (cons_ne_nil c s)

theorem Kept.start (hquote : isspace dquote = false) (hnul : 0 ∉ a) (h : Kept isspace a) :
    (argText a ++ after argv).dropWhile isspace = argText a ++ after argv := by
  by_cases hdelim : ∃ c ∈ a, c ∈ delim
  · rw [argText_quoted hdelim, cons_append]
    exact dropWhile_cons_of_neg (not_eq_true _ ▸ hquote)
  rw [Kept, if_neg hdelim] at h
  obtain ⟨c, s, rfl, hc⟩ := h
  rw [argText_plain hnul hdelim, cons_append]
  exact dropWhile_cons_of_neg (not_eq_true _ ▸ hc)

theorem words_kept (hmalloc : ∀ n, malloc n = true) (hblank : isspace blank = true)
    (hquote : isspace dquote = false) (hnul : ∀ a ∈ argv, 0 ∉ a) (h : ∀ a ∈ argv, Kept isspace a)
    (hfuel : argv.length < fuel) :
    words isspace malloc fuel i nargs ((line argv).dropWhile isspace) = some argv := by
  induction argv generalizing fuel i nargs with
  | nil =>
    obtain ⟨fuel, rfl⟩ := Nat.exists_eq_succ_of_ne_zero (Nat.ne_zero_of_lt hfuel)
    rfl
  | cons a argv ih =>
    obtain ⟨fuel, rfl⟩ := Nat.exists_eq_succ_of_ne_zero (Nat.ne_zero_of_lt hfuel)
    have ha := h a (.head _)
    have hnula := hnul a (.head _)
    rw [line_cons, ha.start hquote hnula]
    have hreads : Reads isspace malloc fuel i a argv
        (words isspace malloc (fuel + 1) i nargs (argText a ++ after argv)) :=
      ha.reads hmalloc hblank hnula
    obtain ⟨more, hreads⟩ := hreads
    rw [hreads]
    split_ifs with hend
    · cases argv with
      | nil => rfl
      | cons b argv => exact absurd hend.1 (cons_ne_nil _ _)
    · rw [ih (fun b hb => hnul b (.tail a hb))
        (fun b hb => h b (.tail a hb)) (by rw [length_cons] at hfuel; omega)]
      rfl

/-! ### Which do not -/

theorem quoted_argument (h : quoted dquote [] (copy dquote a ++ dquote :: s) = some (x, rest)) :
    (a.getLast? ≠ some backslash ∧ x = a) ∨ ∃ w y, a = w ++ [backslash] ∧ x = w ++ dquote :: y := by
  rw [quoted_copy, append_nil] at h
  by_cases hlast : a.getLast? = some backslash
  · obtain ⟨w, rfl⟩ := getLast?_eq_some_iff.mp hlast
    rw [reverse_append, reverse_singleton, singleton_append, quoted, if_pos rfl,
      if_pos (by rfl), tail_cons, ← nil_append (dquote :: w.reverse)] at h
    obtain ⟨y, rfl⟩ := quoted_prefix (by decide) h
    refine .inr ⟨w, y, rfl, ?_⟩
    rw [reverse_cons, reverse_reverse, append_assoc, singleton_append]
  · rw [quoted_end (by rw [head?_reverse]; exact hlast), reverse_reverse] at h
    exact .inl ⟨hlast, (Prod.mk.inj (some.inj h)).1.symm⟩

theorem dropWhile_head (h : a.dropWhile isspace = c :: s) : isspace c = false := by
  induction a with
  | nil => cases h
  | cons d a ih =>
    by_cases hd : isspace d = true
    · rw [dropWhile_cons_of_pos hd] at h
      exact ih h
    · rw [dropWhile_cons_of_neg hd] at h
      obtain ⟨rfl, -⟩ := cons.inj h
      exact not_eq_true _ ▸ hd

theorem skip_plain (hnul : 0 ∉ a) (hplain : ¬ ∃ c ∈ a, c ∈ delim) (hblank : isspace blank = true) :
    (line (a :: argv)).dropWhile isspace = if a.dropWhile isspace = [] then (line argv).dropWhile isspace
      else a.dropWhile isspace ++ after argv := by
  rw [line_cons, argText_plain hnul hplain, dropWhile_append, skip_after hblank]
  by_cases hnone : a.dropWhile isspace = []
  · rw [if_pos hnone, if_pos (isEmpty_iff.mpr hnone)]
  · rw [if_neg hnone, if_neg fun h => hnone (isEmpty_iff.mp h)]

theorem Reads.first {r : List Str} (h : Reads isspace malloc fuel i a argv (some r)) : ∃ args, r = a :: args ∧
    (argv = [] ∧ args = [] ∨
      ∃ nargs, words isspace malloc fuel (i + 1) nargs ((line argv).dropWhile isspace) = some args) := by
  obtain ⟨nargs, hr⟩ := h
  split_ifs at hr with hend
  · refine ⟨[], some.inj hr, .inl ⟨?_, rfl⟩⟩
    cases argv with
    | nil => rfl
    | cons b argv => exact absurd hend.1 (cons_ne_nil _ _)
  · obtain ⟨args, hargs, rfl⟩ := map_eq_some_iff.mp hr.symm
    exact ⟨args, rfl, .inr ⟨nargs, hargs⟩⟩

theorem words_delim (hmalloc : ∀ n, malloc n = true) (hdelim : ∃ c ∈ a, c ∈ delim)
    (hquote : isspace dquote = false)
    (h : words isspace malloc fuel i nargs ((line (a :: argv)).dropWhile isspace) = some (x :: args)) :
    (a.getLast? ≠ some backslash ∧ x = a) ∨ ∃ w y, a = w ++ [backslash] ∧ x = w ++ dquote :: y := by
  have hnotspace : ¬ isspace dquote = true := not_eq_true _ ▸ hquote
  rw [line_cons, argText_quoted hdelim, cons_append, dropWhile_cons_of_neg hnotspace,
    append_assoc, singleton_append] at h
  cases fuel with
  | zero => cases h
  | succ fuel =>
    rw [words_dquote hmalloc] at h
    obtain ⟨r, hr, hmap⟩ := bind_eq_some_iff.mp h
    obtain ⟨args', hargs, hcons⟩ := map_eq_some_iff.mp hmap
    obtain ⟨rfl, -⟩ := cons.inj hcons
    exact quoted_argument hr

section

variable (hmalloc : ∀ n, malloc n = true) (hblank : isspace blank = true)
  (hquote : isspace dquote = false) (hnul : ∀ a ∈ argv, 0 ∉ a)
include hmalloc hblank hquote hnul

/-- An argument that is read begins with no white space, unless it was quoted. -/
theorem words_first
    (h : words isspace malloc fuel i nargs ((line argv).dropWhile isspace) = some (x :: args)) :
    (∃ c s, x = c :: s ∧ isspace c = false) ∨ ∃ c ∈ x, c ∈ delim := by
  induction argv with
  | nil =>
    cases fuel with
    | zero => cases h
    | succ fuel => cases h
  | cons a argv ih =>
    by_cases hdelim : ∃ c ∈ a, c ∈ delim
    · rcases words_delim hmalloc hdelim hquote h with ⟨-, rfl⟩ | ⟨w, y, -, rfl⟩
      · exact .inr hdelim
      · refine .inr ⟨dquote, mem_append_right w (.head _), by decide⟩
    rw [skip_plain (hnul a (.head _)) hdelim hblank] at h
    split_ifs at h with hnone
    · exact ih (fun b hb => hnul b (.tail a hb)) h
    · cases fuel with
      | zero =>
        obtain ⟨c, s, hcs⟩ := exists_cons_of_ne_nil hnone
        rw [hcs] at h
        cases h
      | succ fuel =>
        have hplain : ¬ ∃ c ∈ a.dropWhile isspace, c ∈ delim := by
          rintro ⟨c, hc, hin⟩
          exact hdelim ⟨c, (dropWhile_suffix isspace).subset hc, hin⟩
        have hreads : Reads isspace malloc fuel i (a.dropWhile isspace) argv
            (words isspace malloc (fuel + 1) i nargs (a.dropWhile isspace ++ after argv)) :=
          words_plain hmalloc hblank hplain hnone
        rw [h] at hreads
        obtain ⟨args', hargs, -⟩ := hreads.first
        obtain ⟨rfl, -⟩ := cons.inj hargs
        obtain ⟨c, s, hcs⟩ := exists_cons_of_ne_nil hnone
        exact .inl ⟨c, s, hcs, dropWhile_head hcs⟩

theorem words_only_kept
    (h : words isspace malloc fuel i nargs ((line argv).dropWhile isspace) = some argv) :
    ∀ a ∈ argv, Kept isspace a := by
  induction argv generalizing fuel i nargs with
  | nil => exact nofun
  | cons a argv ih =>
    have hnula := hnul a (.head _)
    have hnulrest : ∀ b ∈ argv, 0 ∉ b := fun b hb => hnul b (.tail a hb)
    have ha : Kept isspace a := by
      by_cases hdelim : ∃ c ∈ a, c ∈ delim
      · rw [Kept, if_pos hdelim]
        rcases words_delim hmalloc hdelim hquote h with ⟨hlast, -⟩ | ⟨w, y, hw, hx⟩
        · exact hlast
        · have hsame := append_cancel_left (hw.symm.trans hx)
          exact absurd (cons.inj hsame).1 (by decide)
      · rw [Kept, if_neg hdelim]
        by_cases hnone : a.dropWhile isspace = []
        · rw [skip_plain hnula hdelim hblank, if_pos hnone] at h
          exact (words_first hmalloc hblank hquote hnulrest h).resolve_right hdelim
        · exact (words_first hmalloc hblank hquote hnul h).resolve_right hdelim
    cases fuel with
    | zero => cases h
    | succ fuel =>
      rw [line_cons, ha.start hquote hnula] at h
      have hreads : Reads isspace malloc fuel i a argv
          (words isspace malloc (fuel + 1) i nargs (argText a ++ after argv)) :=
        ha.reads hmalloc hblank hnula
      rw [h] at hreads
      obtain ⟨args, hargs, hrest⟩ := hreads.first
      obtain ⟨-, rfl⟩ := cons.inj hargs
      intro b hb
      rcases mem_cons.mp hb with rfl | hin
      · exact ha
      · rcases hrest with ⟨rfl, -⟩ | ⟨more, hwords⟩
        · cases hin
        · exact ih hnulrest hwords b hin

end

/-- The round trip. -/
theorem strtoargv_argvtostr (isspace : UInt8 → Bool) (malloc : Nat → Bool) (argv : List Str)
    (hmalloc : ∀ n, malloc n = true) (hblank : isspace blank = true) (hquote : isspace dquote = false)
    (hnul : ∀ a ∈ argv, 0 ∉ a) : (argvtostr malloc argv).bind (strtoargv isspace malloc) = some argv ↔
      argv ≠ [] ∧ ∀ a ∈ argv, Kept isspace a := by
  by_cases hnone : argv = []
  · rw [hnone, argvtostr, if_pos (.inl rfl)]
    exact iff_of_false nofun fun h => h.1 rfl
  have hsome : argvtostr malloc argv = some (line argv) := by
    have hgot : ¬ (argv = [] ∨ malloc (argvLength argv) = false) := by
      rintro (h | h)
      · exact hnone h
      · rw [hmalloc] at h
        cases h
    rw [argvtostr, if_neg hgot, argvText_dropLast]
  rw [hsome, bind_some, strtoargv, if_neg (by rw [hmalloc]; decide)]
  constructor
  · exact fun h => ⟨hnone, words_only_kept hmalloc hblank hquote hnul h⟩
  · rintro ⟨-, hkept⟩
    rw [← words_more (lt_succ_self _) argv.length]
    exact words_kept hmalloc hblank hquote hnul hkept (by omega)

def cSpace (c : UInt8) : Bool := c = blank ∨ 9 ≤ c ∧ c ≤ 13

/-- A blank, a quote after a backslash, and a newline inside. -/
theorem strtoargv_argvtostr_quotes :
    (argvtostr (fun _ => true) [[97, 32], [92, 34], [97, 10]]).bind (strtoargv cSpace fun _ => true) =
      some [[97, 32], [92, 34], [97, 10]] := by
  refine (strtoargv_argvtostr cSpace (fun _ => true) [[97, 32], [92, 34], [97, 10]] (fun _ => rfl) rfl rfl
    (by decide)).mpr ⟨by decide, fun a ha => ?_⟩
  rcases mem_cons.mp ha with rfl | ha
  · rw [Kept, if_pos (by decide)]
    decide
  rcases mem_cons.mp ha with rfl | ha
  · rw [Kept, if_pos (by decide)]
    decide
  · rw [mem_singleton.mp ha, Kept, if_neg (by decide)]
    exact ⟨97, [10], rfl, rfl⟩

/-- An empty string is lost; a backslash at the end swallows the closing quote. -/
theorem strtoargv_loses :
    (argvtostr (fun _ => true) [[108, 115], []]).bind (strtoargv cSpace fun _ => true) = some [[108, 115]] ∧
      (argvtostr (fun _ => true) [[97, 32, 92]]).bind (strtoargv cSpace fun _ => true) = none := by
  decide

end Svr42.ArgvStr
