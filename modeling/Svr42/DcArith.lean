import Svr42.Dc
import Mathlib.Data.List.Basic
import Mathlib.Data.List.Induction
import Mathlib.Tactic.Linarith
import Mathlib.Tactic.Ring

/-! `chsign` and `mult` return normalised numbers. `add` returns the sum, normalised unless it is -1. -/

namespace Svr42.Dc
open Int List Nat Option

variable {p q a1 a2 mr : Blk} {xs ys ds out rest mp mq : List Int} {carry c d : Int} {n size : Nat}

/-! ### Digits -/

theorem value_append (xs ys : List Int) : value (xs ++ ys) = value xs + 100 ^ xs.length * value ys := by
  induction xs with
  | nil => simp only [nil_append, value, length_nil, pow_zero, one_mul, zero_add]
  | cons x xs ih =>
    rw [cons_append, value, value, ih, length_cons, pow_succ]
    ring

theorem value_concat (xs : List Int) (d : Int) : value (xs ++ [d]) = value xs + 100 ^ xs.length * d := by
  rw [value_append, value, value, mul_zero, add_zero]

theorem Digits.left (h : Digits (xs ++ ys)) : Digits xs := fun d hd => h d (mem_append_left _ hd)

theorem Digits.right (h : Digits (xs ++ ys)) : Digits ys := fun d hd => h d (mem_append_right _ hd)

theorem Digits.append (hx : Digits xs) (hy : Digits ys) : Digits (xs ++ ys) :=
  fun d hd => (mem_append.mp hd).elim (hx d) (hy d)

theorem Digits.single (h0 : 0 ≤ d) (h : d ≤ 99) : Digits [d] := fun e he => by
  obtain rfl := mem_singleton.mp he
  exact ⟨h0, h⟩

theorem Digits.bounds (h : Digits xs) : 0 ≤ value xs ∧ value xs < 100 ^ xs.length := by
  induction xs with
  | nil => exact ⟨le_refl 0, zero_lt_one⟩
  | cons x xs ih =>
    obtain ⟨h0, hlt⟩ := ih fun d hd => h d (.tail _ hd)
    obtain ⟨hx0, hx⟩ := h x (.head _)
    rw [value, length_cons, pow_succ]
    omega

theorem Digits.last_bounds (h : Digits xs) (d : Int) :
    100 ^ xs.length * d ≤ value (xs ++ [d]) ∧ value (xs ++ [d]) < 100 ^ xs.length * (d + 1) := by
  obtain ⟨h0, hlt⟩ := h.bounds
  rw [value_concat, mul_add, mul_one]
  omega

theorem Normal.of_digits (h : Digits xs) (hlast : xs.getLast? ≠ some 0) : Normal xs := by
  induction xs using reverseRecOn with
  | nil => exact .zero
  | append_singleton xs d _ =>
    obtain ⟨h0, h99⟩ := h.right d (.head _)
    have hd : d ≠ 0 := fun hd => hlast (by rw [getLast?_concat, hd])
    exact .pos h.left (by omega) h99

theorem Normal.range (h : Normal xs) : ∀ d ∈ xs, -1 ≤ d ∧ d ≤ 99 := by
  cases h with
  | zero => exact nofun
  | @pos ds d hds h1 h99 =>
    intro e he
    obtain he | he := mem_append.mp he
    · have := hds e he
      omega
    · obtain rfl := mem_singleton.mp he
      omega
  | @neg ds hds hlast =>
    intro e he
    obtain he | he := mem_append.mp he
    · have := hds e he
      omega
    · obtain rfl := mem_singleton.mp he
      omega

theorem getD_at (xs ys : List Int) (d : Int) : (xs ++ d :: ys).getD xs.length 0 = d := by
  rw [getD_eq_getElem?_getD, getElem?_append_right le_rfl, Nat.sub_self]
  rfl

theorem slookc_at (xs ys : List Int) (d : Int) : slookc ⟨xs ++ d :: ys, xs.length⟩ = d := by
  rw [slookc, if_neg (by simp [sfeof])]
  exact getD_at xs ys d

theorem sbackc_at (xs ys : List Int) (d : Int) (r : Nat) (hr : r = xs.length + 1) :
    sbackc ⟨xs ++ d :: ys, r⟩ = (d, ⟨xs ++ d :: ys, xs.length⟩) := by
  subst hr
  rw [sbackc, if_neg (by simp [sfbeg])]
  exact congrArg (·, _) (getD_at xs ys d)

theorem salterc_at (xs ys : List Int) (d c : Int) :
    salterc ⟨xs ++ d :: ys, xs.length⟩ c = ⟨xs ++ c :: ys, xs.length + 1⟩ := by
  rw [salterc, if_pos (by simp)]
  simp

theorem salterc_end (xs : List Int) (c : Int) (r : Nat) (hr : r = xs.length) :
    salterc ⟨xs, r⟩ c = ⟨xs ++ [c], r + 1⟩ := by
  rw [salterc, if_neg (by simp [hr])]

/-! ### Negation -/

theorem complement_spec (xs : List Int) (hys : Digits ys) (hc : carry = 0 ∨ carry = 1) (rest : List Int) :
    ∃ out c, complement ys.length carry ⟨xs ++ (ys ++ rest), xs.length⟩ =
        (c, ⟨xs ++ (out ++ rest), xs.length + ys.length⟩) ∧
      out.length = ys.length ∧ Digits out ∧ (c = 0 ∨ c = 1) ∧
      value out + value ys + carry = 100 ^ ys.length * c := by
  induction ys generalizing xs carry with
  | nil => exact ⟨[], carry, rfl, rfl, hys, hc, by simp [value]⟩
  | cons y ys ih =>
    obtain ⟨hy0, hy⟩ := hys y (.head _)
    have hys' : Digits ys := fun d hd => hys d (.tail _ hd)
    -- one digit, with the carry into the next
    have hstep : ∀ e c', (e = 100 - y - carry - 100 * (1 - c')) → 0 ≤ e → e ≤ 99 → (c' = 0 ∨ c' = 1) →
        ∃ out c, complement ys.length c' (salterc ⟨xs ++ (y :: ys ++ rest), xs.length⟩ e) =
            (c, ⟨xs ++ (out ++ rest), xs.length + (y :: ys).length⟩) ∧
          out.length = (y :: ys).length ∧ Digits out ∧ (c = 0 ∨ c = 1) ∧
          value out + value (y :: ys) + carry = 100 ^ (y :: ys).length * c := by
      intro e c' he h0 h99 hc'
      obtain ⟨out, c, heq, hlen, hout, hcc, hval⟩ := ih (xs ++ [e]) hys' hc'
      refine ⟨e :: out, c, ?_, congrArg (· + 1) hlen, (Digits.single h0 h99).append hout, hcc, ?_⟩
      · rw [cons_append, salterc_at, ← append_cons, length_append] at *
        rw [length_singleton] at heq
        rw [heq, append_assoc, length_cons, add_assoc, add_comm 1]
        rfl
      · rw [value, value, length_cons, pow_succ]
        linarith
    rw [length_cons, complement]
    rw [cons_append, slookc_at, ← cons_append]
    split_ifs with hge
    · exact hstep _ 0 (by omega) (by omega) (by omega) (.inl rfl)
    · exact hstep _ 1 (by omega) (by omega) (by omega) (.inr rfl)

theorem complement_add (m n : Nat) (carry : Int) (p : Blk) : complement (m + n) carry p =
    complement n (complement m carry p).1 (complement m carry p).2 := by
  induction m generalizing carry p with
  | zero => rw [zero_add, complement]
  | succ m ih =>
    rw [add_right_comm, complement, complement]
    split
    · exact ih _ _
    · exact ih _ _

theorem chsign_carry {r : Nat} (h : complement (length p) 0 (rewind p) = (1, ⟨xs ++ [d], r⟩)) :
    (chsign p).data = if d = 99 then xs ++ [-1] else xs ++ [d, -1] := by
  have hback : sbackc (sbackc (fsfile (sputc ⟨xs ++ [d], r⟩ (-1)))).2 =
      (d, ⟨xs ++ [d, -1], xs.length⟩) := by
    rw [sputc, fsfile, append_assoc, singleton_append,
      show xs ++ [d, -1] = (xs ++ [d]) ++ [-1] by simp, sbackc_at _ [] _ _ (by simp)]
    rw [append_assoc, singleton_append]
    exact sbackc_at xs [-1] d _ (by simp)
  rw [chsign, h]
  dsimp only
  rw [if_pos (by decide), hback]
  by_cases hd : d = 99
  · rw [if_pos hd, if_pos hd]
    simp [truncate, sputc]
  · rw [if_neg hd, if_neg hd]

theorem chsign_noCarry {r : Nat} (h : complement (length p) 0 (rewind p) = (0, ⟨xs ++ [d], r⟩)) :
    (chsign p).data = if d = 0 then xs else xs ++ [d] := by
  have hback : sbackc (fsfile ⟨xs ++ [d], r⟩) = (d, ⟨xs ++ [d], xs.length⟩) :=
    sbackc_at xs [] d _ (by simp)
  rw [chsign, h]
  dsimp only
  rw [if_neg (by decide), hback]
  by_cases hd : d = 0
  · rw [if_pos hd, if_pos hd]
    simp [truncate]
  · rw [if_neg hd, if_neg hd]

theorem chsign_pos (hds : Digits ds) (h1 : 1 ≤ d) (h99 : d ≤ 99) (rd : Nat) :
    value (chsign ⟨ds ++ [d], rd⟩).data = -value (ds ++ [d]) ∧ Normal (chsign ⟨ds ++ [d], rd⟩).data := by
  have hdigits : Digits (ds ++ [d]) := hds.append (.single (by omega) h99)
  obtain ⟨out, c, heq, hlen, hout, hc, hval⟩ := complement_spec [] hdigits (.inl rfl) []
  rw [append_nil, append_nil, nil_append, nil_append] at heq
  obtain ⟨hlow, -⟩ := hds.last_bounds d
  have hpow : (0 : Int) < 100 ^ ds.length := by positivity
  rw [length_append, length_singleton] at hlen
  obtain ⟨xs, e, rfl⟩ : ∃ xs e, out = xs ++ [e] := by
    have hne : out ≠ [] := fun h0 => by rw [h0] at hlen; cases hlen
    exact ⟨_, _, (dropLast_concat_getLast hne).symm⟩
  have hxs : xs.length = ds.length := by
    rw [length_append] at hlen
    exact add_right_cancel hlen
  obtain ⟨hxlow, hxhigh⟩ := hout.left.last_bounds e
  obtain ⟨he0, he⟩ := hout.right e (.head _)
  have hc1 : c = 1 := by
    obtain rfl | rfl := hc
    · nlinarith
    · rfl
  subst hc1
  rw [hxs] at hxlow hxhigh
  rw [length_append, length_singleton, pow_succ] at hval
  rw [chsign_carry (p := ⟨ds ++ [d], rd⟩) heq]
  by_cases he99 : e = 99
  · -- only the complement of a power of the base starts with 99
    subst he99
    rw [if_pos rfl]
    have hval' : value xs = 0 := by
      have := hout.left.bounds.1
      rw [value_concat, hxs] at hval
      nlinarith
    refine ⟨?_, .neg hout.left fun hl => ?_⟩
    · rw [value_concat xs, hxs] at hval ⊢
      linarith
    · obtain ⟨ys, rfl⟩ := getLast?_eq_some_iff.mp hl
      have := (hout.left.left).last_bounds 99
      omega
  · rw [if_neg he99]
    constructor
    · rw [show xs ++ [e, -1] = (xs ++ [e]) ++ [-1] by simp, value_concat, length_append,
        length_singleton, pow_succ, hxs]
      linarith
    · rw [show xs ++ [e, -1] = (xs ++ [e]) ++ [-1] by simp]
      exact .neg hout fun hl => he99 (by rw [getLast?_concat] at hl; exact some.inj hl)

theorem chsign_neg (hds : Digits ds) (hlast : ds.getLast? ≠ some 99) (rd : Nat) :
    value (chsign ⟨ds ++ [-1], rd⟩).data = -value (ds ++ [-1]) ∧ Normal (chsign ⟨ds ++ [-1], rd⟩).data := by
  obtain ⟨out, c, heq, hlen, hout, hc, hval⟩ := complement_spec [] hds (.inl rfl) [-1]
  rw [nil_append, nil_append, length_nil, zero_add, ← hlen] at heq
  -- the leading -1 becomes 1 without a carry from below, and 0 with one
  have hlead : complement (ds ++ [-1]).length 0 ⟨ds ++ [-1], 0⟩ = (0, ⟨out ++ [1 - c], out.length + 1⟩) := by
    rw [length_append, ← hlen, complement_add, heq, length_singleton, complement]
    rw [slookc_at, if_pos (by omega), salterc_at, complement]
    congr 4
    omega
  rw [chsign_noCarry (p := ⟨ds ++ [-1], rd⟩) hlead, value_concat, ← hlen]
  rw [← hlen] at hval
  obtain rfl | rfl := hc
  · rw [if_neg (by decide), value_concat]
    exact ⟨by linarith, .pos hout (by decide) (by decide)⟩
  rw [if_pos (by decide)]
  refine ⟨by linarith, .of_digits hout fun hl => ?_⟩
  obtain ⟨ys, rfl⟩ := getLast?_eq_some_iff.mp hl
  obtain ⟨zs, e, rfl⟩ : ∃ zs e, ds = zs ++ [e] := by
    have hne : ds ≠ [] := fun h0 => by
      rw [h0, length_append] at hlen
      cases hlen
    exact ⟨_, _, (dropLast_concat_getLast hne).symm⟩
  rw [length_append, length_append] at hlen
  have hys : ys.length = zs.length := add_right_cancel hlen
  have hzero := hout.left.last_bounds 0
  have hlow := hds.left.last_bounds e
  have he := (hds.right e (.head _)).2
  have hpow : (0 : Int) < 100 ^ zs.length := by positivity
  rw [length_append, length_singleton, pow_succ, hys] at hval
  rw [hys] at hzero
  have he99 : e = 99 := by
    by_contra hne
    have hle : (100 : Int) ^ zs.length * (e + 1) ≤ 100 ^ zs.length * 99 :=
      mul_le_mul_of_nonneg_left (by omega) (le_of_lt hpow)
    linarith [hzero.2, hlow.2]
  exact hlast (by rw [he99, getLast?_concat])

theorem chsign_spec (p : Blk) (h : Normal p.data) :
    value (chsign p).data = -value p.data ∧ Normal (chsign p).data := by
  obtain ⟨data, rd⟩ := p
  cases h with
  | zero => exact ⟨rfl, .zero⟩
  | pos hds h1 h99 => exact chsign_pos hds h1 h99 rd
  | neg hds hlast => exact chsign_neg hds hlast rd

/-! ### Addition -/

theorem next_spec (xs ys : List Int) (hys : ∀ d ∈ ys, -1 ≤ d ∧ d ≤ 99) :
    ∃ y xs' ys', (if sfeof ⟨xs ++ ys, xs.length⟩ then (0, ⟨xs ++ ys, xs.length⟩)
        else sgetc ⟨xs ++ ys, xs.length⟩) = (y, (⟨xs' ++ ys', xs'.length⟩ : Blk)) ∧
      value ys = y + 100 * value ys' ∧ -1 ≤ y ∧ y ≤ 99 ∧ ys'.length = ys.length - 1 ∧
      ∀ d ∈ ys', -1 ≤ d ∧ d ≤ 99 := by
  cases ys with
  | nil => exact ⟨0, xs, [], if_pos (by simp [sfeof]), rfl, by decide, by decide, rfl, hys⟩
  | cons y ys =>
    obtain ⟨hlow, hhigh⟩ := hys y (.head _)
    refine ⟨y, xs ++ [y], ys, ?_, rfl, hlow, hhigh, rfl, fun d hd => hys d (.tail _ hd)⟩
    rw [if_neg (by simp [sfeof]), sgetc, if_neg (by simp [sfeof])]
    rw [getD_at, append_assoc, length_append]
    rfl

theorem addDigits_spec (xs xs₁ xs₂ : List Int) {ys₁ ys₂ : List Int} (r : Nat) (h₁ : ∀ d ∈ ys₁, -1 ≤ d ∧ d ≤ 99)
    (h₂ : ∀ d ∈ ys₂, -1 ≤ d ∧ d ≤ 99) (hlen₁ : ys₁.length ≤ size) (hlen₂ : ys₂.length ≤ size)
    (hc : -1 ≤ carry) (hc' : carry ≤ 1) :
    ∃ out c, addDigits size ⟨xs₁ ++ ys₁, xs₁.length⟩ ⟨xs₂ ++ ys₂, xs₂.length⟩ carry ⟨xs, r⟩ =
        (c, ⟨xs ++ out, r⟩) ∧
      out.length = size ∧ Digits out ∧ -1 ≤ c ∧ c ≤ 1 ∧
      value out + 100 ^ size * c = value ys₁ + value ys₂ + carry := by
  induction size generalizing xs₁ ys₁ xs₂ ys₂ xs carry with
  | zero =>
    obtain rfl := length_eq_zero_iff.mp (le_zero.mp hlen₁)
    obtain rfl := length_eq_zero_iff.mp (le_zero.mp hlen₂)
    exact ⟨[], carry, by rw [append_nil xs]; rfl, rfl, nofun, hc, hc', by simp [value]⟩
  | succ size ih =>
    obtain ⟨y₁, xs₁', ys₁', hnext₁, hval₁, hlow₁, hhigh₁, hl₁, h₁'⟩ := next_spec xs₁ ys₁ h₁
    obtain ⟨y₂, xs₂', ys₂', hnext₂, hval₂, hlow₂, hhigh₂, hl₂, h₂'⟩ := next_spec xs₂ ys₂ h₂
    -- one digit, with the carry into the next
    have hstep : ∀ e c', e = y₁ + y₂ + carry - 100 * c' → 0 ≤ e → e ≤ 99 → -1 ≤ c' → c' ≤ 1 →
        ∃ out c, addDigits size ⟨xs₁' ++ ys₁', xs₁'.length⟩ ⟨xs₂' ++ ys₂', xs₂'.length⟩ c'
            (sputc ⟨xs, r⟩ e) = (c, ⟨xs ++ out, r⟩) ∧
          out.length = size + 1 ∧ Digits out ∧ -1 ≤ c ∧ c ≤ 1 ∧
          value out + 100 ^ (size + 1) * c = value ys₁ + value ys₂ + carry := by
      intro e c' he h0 h99 hc0 hc1
      obtain ⟨out, c, heq, hlen, hout, hlow, hhigh, hval⟩ :=
        ih (xs ++ [e]) xs₁' xs₂' h₁' h₂' (by omega) (by omega) hc0 hc1
      refine ⟨e :: out, c, ?_, congrArg (· + 1) hlen, (Digits.single h0 h99).append hout, hlow, hhigh, ?_⟩
      · rw [sputc, heq, append_assoc]
        rfl
      · rw [value, pow_succ, hval₁, hval₂]
        linarith
    rw [addDigits, hnext₁, hnext₂]
    by_cases hge : y₁ + y₂ + carry ≥ 100
    · rw [if_pos hge]
      exact hstep _ 1 (by omega) (by omega) (by omega) (by omega) (by omega)
    rw [if_neg hge]
    split_ifs with hneg
    · exact hstep _ (-1) (by omega) (by omega) (by omega) (by omega) (by omega)
    · exact hstep _ 0 (by omega) (by omega) (by omega) (by omega) (by omega)

/-- The loop passes over the leading zeros, to the last digit that is not zero. -/
theorem skipZeros_spec (ds ys : List Int) : ∃ xs k, ds = xs ++ replicate k 0 ∧ xs.getLast? ≠ some 0 ∧
    (if (skipZeros ⟨ds ++ ys, ds.length⟩ ds.length).1 ≠ 0 then
        salterc (skipZeros ⟨ds ++ ys, ds.length⟩ ds.length).2 (skipZeros ⟨ds ++ ys, ds.length⟩ ds.length).1
      else (skipZeros ⟨ds ++ ys, ds.length⟩ ds.length).2) = ⟨ds ++ ys, xs.length⟩ := by
  induction ds using reverseRecOn generalizing ys with
  | nil => exact ⟨[], 0, rfl, by simp, rfl⟩
  | append_singleton ds d ih =>
    have hback : sbackc ⟨ds ++ d :: ys, ds.length + 1⟩ = (d, ⟨ds ++ d :: ys, ds.length⟩) :=
      sbackc_at ds ys d _ rfl
    rw [length_append, length_singleton, append_assoc, singleton_append, skipZeros, hback]
    by_cases hd : d = 0
    · subst hd
      obtain ⟨xs, k, hds, hlast, heq⟩ := ih (0 :: ys)
      rw [if_pos rfl]
      refine ⟨xs, k + 1, ?_, hlast, heq⟩
      rw [replicate_succ', ← append_assoc, ← hds]
    · rw [if_neg hd, if_pos hd]
      refine ⟨ds ++ [d], 0, by simp, by simpa using hd, ?_⟩
      rw [salterc_at, length_append]
      rfl

theorem skip99_spec (ds ys : List Int) : ∃ xs k, ds = xs ++ replicate k 99 ∧ xs.getLast? ≠ some 99 ∧
    skip99 ⟨ds ++ ys, ds.length⟩ ds.length = ⟨ds ++ ys, xs.length - 1⟩ := by
  induction ds using reverseRecOn generalizing ys with
  | nil => exact ⟨[], 0, rfl, by simp, rfl⟩
  | append_singleton ds d ih =>
    have hback : sbackc ⟨ds ++ d :: ys, ds.length + 1⟩ = (d, ⟨ds ++ d :: ys, ds.length⟩) :=
      sbackc_at ds ys d _ rfl
    rw [length_append, length_singleton, append_assoc, singleton_append, skip99, hback]
    by_cases hd : d = 99
    · subst hd
      obtain ⟨xs, k, hds, hlast, heq⟩ := ih (99 :: ys)
      rw [if_pos rfl]
      refine ⟨xs, k + 1, ?_, hlast, heq⟩
      rw [replicate_succ', ← append_assoc, ← hds]
    · rw [if_neg hd]
      refine ⟨ds ++ [d], 0, by simp, by simpa using hd, ?_⟩
      rw [length_append]
      rfl

theorem stripZeros_spec (p : Blk) : ∃ xs k, p.data = xs ++ replicate k 0 ∧ xs.getLast? ≠ some 0 ∧
    (stripZeros p).data = xs := by
  rw [stripZeros]
  by_cases hbeg : sfbeg (fsfile p)
  · rw [if_pos hbeg]
    have hnil : p.data = [] := length_eq_zero_iff.mp hbeg
    refine ⟨[], 0, hnil, by simp, hnil⟩
  rw [if_neg hbeg]
  obtain ⟨xs, k, hds, hlast, heq⟩ := skipZeros_spec p.data []
  refine ⟨xs, k, hds, hlast, ?_⟩
  rw [append_nil] at heq
  have hgo := congrArg (fun b => (truncate b).data) heq
  refine hgo.trans ?_
  rw [truncate, hds, take_left]

theorem take_set_succ {l : List Int} {i : Nat} (c : Int) (h : i < l.length) :
    (l.set i c).take (i + 1) = l.take i ++ [c] := by
  rw [take_succ_eq_append_getElem (by rwa [length_set]), take_set, getElem_set_self,
    set_eq_of_length_le (length_take_le i l)]

/-- The result without the extra 99s: one of them stays when there is nothing else. -/
theorem strip99_neg (ds : List Int) (r : Nat) (hne : ds ≠ []) : ∃ xs k, ds = xs ++ replicate k 99 ∧
    xs.getLast? ≠ some 99 ∧ (strip99 ⟨ds ++ [-1], r⟩).data = if xs = [] then [99, -1] else xs ++ [-1] := by
  obtain ⟨xs, k, hds, hlast, heq⟩ := skip99_spec ds [-1]
  refine ⟨xs, k, hds, hlast, ?_⟩
  have hback : sbackc (fsfile ⟨ds ++ [-1], r⟩) = (-1, ⟨ds ++ [-1], ds.length⟩) :=
    sbackc_at ds [] (-1) _ (by simp)
  have hpos : 0 < ds.length := length_pos_iff.mpr hne
  have hle : xs.length ≤ ds.length := by
    rw [hds, length_append]
    exact Nat.le_add_right _ _
  rw [strip99, hback]
  rw [if_pos ⟨by simp [sfbeg, fsfile], rfl⟩, heq, sgetc, if_neg (by simp [sfeof]; omega), salterc]
  dsimp only
  rw [if_pos (by rw [length_append, length_singleton]; omega), truncate]
  rw [take_set_succ _ (by rw [length_append, length_singleton]; omega)]
  by_cases hxs : xs = []
  · subst hxs
    rw [if_pos rfl]
    cases k with
    | zero => exact absurd hds hne
    | succ k =>
      rw [hds, replicate_succ]
      rfl
  · have hpos' := length_pos_iff.mpr hxs
    rw [if_neg hxs, Nat.sub_add_cancel hpos', hds, append_assoc, take_left]

theorem strip99_eq (p : Blk) : strip99 p = strip99 ⟨p.data, 0⟩ := rfl

theorem strip99_other (ds : List Int) (r : Nat) (h : ds.getLast? ≠ some (-1)) :
    (strip99 ⟨ds, r⟩).data = ds := by
  rw [strip99, if_neg]
  · rfl
  · rintro ⟨hbeg, hlast⟩
    induction ds using reverseRecOn with
    | nil => exact hbeg rfl
    | append_singleton ds d _ =>
      have hback : sbackc (fsfile ⟨ds ++ [d], r⟩) = (d, ⟨ds ++ [d], ds.length⟩) :=
        sbackc_at ds [] d _ (by simp)
      rw [hback] at hlast
      exact h (by rw [getLast?_concat]; exact congrArg some hlast)

theorem stripZeros_other (r : Nat) (h : ds.getLast? ≠ some 0) : (stripZeros ⟨ds, r⟩).data = ds := by
  obtain ⟨xs, k, hds, -, heq⟩ := stripZeros_spec ⟨ds, r⟩
  change ds = _ at hds
  cases k with
  | zero => rw [heq, hds, replicate_zero, append_nil]
  | succ k =>
    rw [hds, replicate_succ', ← append_assoc, getLast?_concat] at h
    exact absurd rfl h

theorem value_replicate_zero (k : Nat) : value (replicate k 0) = 0 := by
  induction k with
  | zero => rfl
  | succ k ih => rw [replicate_succ, value, ih]; rfl

theorem value_replicate_99 (k : Nat) : value (replicate k 99) = 100 ^ k - 1 := by
  induction k with
  | zero => rfl
  | succ k ih =>
    rw [replicate_succ, value, ih, pow_succ]
    ring

/-- The sum is right, and it is normalised except that -1 comes out with a 99 before it. -/
theorem add_spec (p q : Blk) (hp : Normal p.data) (hq : Normal q.data) :
    value (add p q).data = value p.data + value q.data ∧
    (value p.data + value q.data ≠ -1 → Normal (add p q).data) ∧
    (value p.data + value q.data = -1 → (add p q).data = [99, -1]) := by
  have hlen : p.data.length ≤ (if length p > length q then length p else length q) ∧
      q.data.length ≤ (if length p > length q then length p else length q) := by
    split_ifs with h
    · exact ⟨le_rfl, h.le⟩
    · exact ⟨Nat.le_of_not_lt h, le_rfl⟩
  obtain ⟨out, c, heq, houtlen, hout, hc, hc', hval⟩ :=
    addDigits_spec [] [] [] 0 hp.range hq.range hlen.1 hlen.2 (by decide : (-1 : Int) ≤ 0)
      (by decide)
  have hloop : addDigits (if length p > length q then length p else length q) (rewind p) (rewind q) 0 salloc =
      (c, ⟨out, 0⟩) := heq
  rw [add, hloop]
  generalize (if length p > length q then length p else length q) = size at *
  have hbounds := hout.bounds
  rw [houtlen] at hbounds
  rw [add_zero] at hval
  dsimp only
  obtain rfl | rfl | rfl : c = 0 ∨ c = 1 ∨ c = -1 := by omega
  · -- no carry: the leading zeros go
    obtain ⟨xs, k, hxs, hlast, heq⟩ := stripZeros_spec ⟨out, 0⟩
    change out = _ at hxs
    rw [hxs] at hout
    have hstrip : (strip99 (stripZeros ⟨out, 0⟩)).data = xs := by
      rw [strip99_eq, heq]
      refine strip99_other xs 0 fun h => ?_
      obtain ⟨ys, rfl⟩ := getLast?_eq_some_iff.mp h
      exact absurd (hout.left (-1) (by simp)).1 (by decide)
    have hvalxs : value out = value xs := by
      rw [hxs, value_append, value_replicate_zero, mul_zero, add_zero]
    rw [if_neg (by decide), hstrip]
    exact ⟨by linarith, fun _ => .of_digits hout.left hlast, fun h => by omega⟩
  · rw [if_pos (by decide), sputc]
    have hlast : (out ++ [(1 : Int)]).getLast? ≠ some 0 := by
      rw [getLast?_concat]
      decide
    have hlast' : (out ++ [(1 : Int)]).getLast? ≠ some (-1) := by
      rw [getLast?_concat]
      decide
    rw [strip99_eq, stripZeros_other 0 hlast, strip99_other _ 0 hlast', value_concat, houtlen]
    exact ⟨hval, fun _ => .pos hout (by decide) (by decide), fun h => by omega⟩
  · have hne : out ≠ [] := by
      rintro rfl
      rw [← houtlen, length_nil, pow_zero] at hval
      have h0 : ∀ {l : List Int}, Normal l → l.length ≤ 0 → value l = 0 := by
        intro l _ hl
        rw [length_eq_zero_iff.mp (le_zero.mp hl)]
        rfl
      rw [← houtlen] at hlen
      rw [h0 hp hlen.1, h0 hq hlen.2] at hval
      exact absurd hval (by decide)
    rw [if_pos (by decide), sputc]
    have hlast : (out ++ [(-1 : Int)]).getLast? ≠ some 0 := by
      rw [getLast?_concat]
      decide
    obtain ⟨xs, k, hxs, hlast99, hstrip⟩ := strip99_neg out 0 hne
    rw [strip99_eq, stripZeros_other 0 hlast, hstrip]
    have hlen99 : size = xs.length + k := by rw [← houtlen, hxs, length_append, length_replicate]
    rw [hxs, value_append, value_replicate_99] at hval
    rw [hxs] at hout
    have hsum : value p.data + value q.data = value xs - 100 ^ xs.length := by
      rw [← hval, hlen99, pow_add]
      ring
    by_cases hnil : xs = []
    · subst hnil
      rw [if_pos rfl]
      have hsum' : value p.data + value q.data = -1 := hsum
      exact ⟨hsum'.symm ▸ rfl, fun h => absurd hsum' h, fun _ => rfl⟩
    rw [if_neg hnil]
    -- the digit before the leading -1 is less than 99
    have hne1 : value p.data + value q.data ≠ -1 := by
      obtain ⟨ys, e, rfl⟩ : ∃ ys e, xs = ys ++ [e] := ⟨_, _, (dropLast_concat_getLast hnil).symm⟩
      have he : e ≤ 98 := by
        have h99 := (hout.left.right e (.head _)).2
        have : e ≠ 99 := fun h => hlast99 (by rw [getLast?_concat, h])
        omega
      have hhigh := (hout.left.left.last_bounds e).2
      have hpow' : (0 : Int) < 100 ^ ys.length := by positivity
      have hle : (100 : Int) ^ ys.length * (e + 1) ≤ 100 ^ ys.length * 99 :=
        mul_le_mul_of_nonneg_left (by omega) (le_of_lt hpow')
      rw [hsum, length_append, length_singleton, pow_succ]
      intro h
      linarith
    exact ⟨by rw [value_concat]; linarith, fun _ => .neg hout.left hlast99, fun h => absurd h hne1⟩

/-! ### Multiplication -/

theorem Normal.nonneg (h : Normal ds) (h0 : 0 ≤ value ds) : Digits ds ∧ ds.getLast? ≠ some 0 := by
  cases h with
  | zero => exact ⟨nofun, by simp⟩
  | @pos xs d hxs h1 h99 =>
    refine ⟨hxs.append (.single (by omega) h99), fun h => ?_⟩
    have hd : d = 0 := by simpa using h
    omega
  | @neg xs hxs _ =>
    have := hxs.bounds
    rw [value_concat] at h0
    omega

theorem back_last (ds : List Int) (d : Int) (rd : Nat) : (sbackc (fsfile ⟨ds ++ [d], rd⟩)).1 = d := by
  rw [show sbackc (fsfile ⟨ds ++ [d], rd⟩) = (d, ⟨ds ++ [d], ds.length⟩) from sbackc_at ds [] d _ (by simp)]

theorem absolute_spec (p : Blk) (h : Normal p.data) :
    Digits (absolute p).1.data ∧ (absolute p).1.data.getLast? ≠ some 0 ∧
    value p.data = if (absolute p).2 then -value (absolute p).1.data else value (absolute p).1.data := by
  have hkept : ¬(¬sfbeg (fsfile p) ∧ (sbackc (fsfile p)).1 < 0) → 0 ≤ value p.data →
      Digits (absolute p).1.data ∧ (absolute p).1.data.getLast? ≠ some 0 ∧
      value p.data = if (absolute p).2 then -value (absolute p).1.data else value (absolute p).1.data := by
    intro hno h0
    rw [absolute, if_neg hno]
    exact ⟨(h.nonneg h0).1, (h.nonneg h0).2, rfl⟩
  obtain ⟨data, rd⟩ := p
  cases h with
  | zero => exact hkept (fun h => h.1 rfl) (le_refl 0)
  | @pos ds d hds h1 h99 =>
    refine hkept (fun h => ?_) (hds.append (.single (by omega) h99)).bounds.1
    have := (back_last ds d rd).symm.trans_lt h.2
    omega
  | @neg ds hds hlast =>
    have hneg : ¬sfbeg (fsfile ⟨ds ++ [-1], rd⟩) ∧ (sbackc (fsfile ⟨ds ++ [-1], rd⟩)).1 < 0 :=
      ⟨by simp [sfbeg, fsfile], (back_last ds (-1) rd).trans_lt (by decide)⟩
    have habs : absolute ⟨ds ++ [-1], rd⟩ = (chsign (fsfile ⟨ds ++ [-1], rd⟩), true) := if_pos hneg
    obtain ⟨hval, hnormal⟩ := chsign_neg hds hlast (ds ++ [-1]).length
    have h0 : 0 ≤ value (chsign ⟨ds ++ [-1], (ds ++ [-1]).length⟩).data := by
      have := hds.bounds
      rw [hval, value_concat]
      omega
    refine ⟨?_, ?_, ?_⟩
    · exact habs.symm ▸ (hnormal.nonneg h0).1
    · exact habs.symm ▸ (hnormal.nonneg h0).2
    · rw [show absolute ⟨ds.append [-1], rd⟩ = _ from habs, if_pos rfl]
      change value (ds ++ [-1]) = -value (chsign ⟨ds ++ [-1], (ds ++ [-1]).length⟩).data
      omega

/-- One digit of `mq` times the digits of `mp` is added from `rd` on. -/
theorem addRow_spec {cq : Int} (hcq : 0 ≤ cq) (hcq' : cq ≤ 99) (xs rest : List Int) (carry : Int) (hmp : Digits mp)
    (hrest : Digits rest) (hlen : rest.length ≤ mp.length) (hc : 0 ≤ carry) (hc' : carry ≤ 99) :
    ∃ out c, addRow cq mp carry ⟨xs ++ rest, xs.length⟩ = (c, ⟨xs ++ out, xs.length + mp.length⟩) ∧
      out.length = mp.length ∧ Digits out ∧ 0 ≤ c ∧ c ≤ 99 ∧
      value out + 100 ^ mp.length * c = value rest + cq * value mp + carry := by
  induction mp generalizing xs rest carry with
  | nil =>
    obtain rfl := length_eq_zero_iff.mp (Nat.le_zero.mp hlen)
    exact ⟨[], carry, rfl, rfl, hrest, hc, hc', by simp [value]⟩
  | cons cp mp ih =>
    obtain ⟨hcp, hcp'⟩ := hmp cp (.head _)
    have hmp' : Digits mp := fun d hd => hmp d (.tail _ hd)
    have hprod : cp * cq ≤ 99 * 99 := mul_le_mul hcp' hcq' hcq (by decide)
    have hprod0 : 0 ≤ cp * cq := mul_nonneg hcp hcq
    -- the digit under `rd`, and what is left of the row
    obtain ⟨m, rest', hm, hrest', hlen', hm0, hm99, hval, hput⟩ : ∃ m rest',
        (if sfeof ⟨xs ++ rest, xs.length⟩ then 0 else slookc ⟨xs ++ rest, xs.length⟩) = m ∧ Digits rest' ∧
        rest'.length ≤ mp.length ∧ 0 ≤ m ∧ m ≤ 99 ∧ value rest = m + 100 * value rest' ∧
        ∀ e, salterc ⟨xs ++ rest, xs.length⟩ e = ⟨(xs ++ [e]) ++ rest', (xs ++ [e]).length⟩ := by
      cases rest with
      | nil =>
        refine ⟨0, [], if_pos (by simp [sfeof]), hrest, Nat.zero_le _, by decide, by decide, rfl, fun e => ?_⟩
        rw [append_nil, salterc_end xs e _ rfl, append_nil, length_append]
        rfl
      | cons m rest =>
        obtain ⟨hm0, hm99⟩ := hrest m (.head _)
        refine ⟨m, rest, ?_, fun d hd => hrest d (.tail _ hd), Nat.le_of_succ_le_succ hlen, hm0,
          hm99, rfl, fun e => ?_⟩
        · rw [if_neg (by simp [sfeof]), slookc_at]
        · rw [salterc_at, append_assoc, length_append]
          rfl
    have hmt0 : 0 ≤ cp * cq + carry + m := by omega
    have hdiv : (cp * cq + carry + m).tdiv 100 = (cp * cq + carry + m) / 100 := tdiv_eq_ediv_of_nonneg hmt0
    have hmod : (cp * cq + carry + m).tmod 100 = (cp * cq + carry + m) % 100 := tmod_eq_emod_of_nonneg hmt0
    obtain ⟨out, c, heq, hlen, hout, hc0, hc99, hvalout⟩ :=
      ih (xs ++ [(cp * cq + carry + m) % 100]) rest' ((cp * cq + carry + m) / 100) hmp' hrest' hlen' (by omega)
        (by omega)
    refine ⟨(cp * cq + carry + m) % 100 :: out, c, ?_, congrArg (· + 1) hlen,
      (Digits.single (by omega) (by omega)).append hout, hc0, hc99, ?_⟩
    · rw [addRow, hm, hput, hdiv, hmod, heq, append_assoc, length_append, length_singleton,
        length_cons, Nat.add_assoc, Nat.add_comm 1]
      rfl
    · have hsplit : (cp * cq + carry + m) % 100 + 100 * ((cp * cq + carry + m) / 100) = cp * cq + carry + m :=
        emod_add_mul_ediv _ 100
      rw [value, value, length_cons, pow_succ, hval]
      linarith

theorem addRows_nil (mq : List Int) (offset : Nat) (r : Nat) : (addRows [] mq offset ⟨[], r⟩).data = [] := by
  induction mq generalizing offset r with
  | nil => rfl
  | cons cq mq ih => exact ih (offset + 1) offset

/-- A whole row: its leading digit is not zero when the digit of `mq` is not. -/
theorem row_spec {cq : Int} (hmp : Digits mp) (htop : mp.getLast? ≠ some 0) (hne : mp ≠ []) (hcq : 0 ≤ cq)
    (hcq' : cq ≤ 99) (hrest : Digits rest) (hlen : rest.length ≤ mp.length) (xs : List Int) :
    ∃ row, (endRow (addRow cq mp 0 ⟨xs ++ rest, xs.length⟩).1 (addRow cq mp 0 ⟨xs ++ rest, xs.length⟩).2).data =
        xs ++ row ∧
      Digits row ∧ mp.length ≤ row.length ∧ row.length ≤ mp.length + 1 ∧
      value row = value rest + cq * value mp ∧ (cq ≠ 0 → row.getLast? ≠ some 0) := by
  obtain ⟨out, c, heq, hlenout, hout, hc0, hc99, hval⟩ :=
    addRow_spec hcq hcq' xs rest 0 hmp hrest hlen (le_refl 0) (by decide)
  rw [heq, endRow]
  by_cases hc : c = 0
  · rw [if_neg (not_not_intro hc)]
    rw [hc, mul_zero, add_zero, add_zero] at hval
    refine ⟨out, rfl, hout, by omega, by omega, hval, fun hcq0 hl => ?_⟩
    obtain ⟨ys, rfl⟩ := getLast?_eq_some_iff.mp hl
    obtain ⟨zs, e, rfl⟩ : ∃ zs e, mp = zs ++ [e] := ⟨_, _, (dropLast_concat_getLast hne).symm⟩
    have hzero := (hout.left.last_bounds 0).2
    have hlow := (hmp.left.last_bounds e).1
    have he : 1 ≤ e := by
      have h0 := (hmp.right e (.head _)).1
      have : e ≠ 0 := fun h => htop (by rw [getLast?_concat, h])
      omega
    rw [length_append, length_append] at hlenout
    have hys : ys.length = zs.length := add_right_cancel hlenout
    have hpow : (0 : Int) < 100 ^ zs.length := by positivity
    have hmpval : 100 ^ zs.length ≤ value (zs ++ [e]) := by nlinarith
    have hcq1 : 1 ≤ cq := by omega
    have hrest0 := hrest.bounds.1
    rw [hys] at hzero
    nlinarith
  · rw [if_pos hc, if_pos (by simp [sfeof, hlenout]), salterc_end _ _ _ (by simp [hlenout])]
    refine ⟨out ++ [0 + c], append_assoc .., hout.append (.single (by omega) (by omega)), by simp [hlenout],
      by simp [hlenout], ?_, fun _ hl => hc ?_⟩
    · rw [value_concat, hlenout, zero_add]
      linarith
    · rw [getLast?_concat, zero_add] at hl
      exact some.inj hl

/-- The rows for the digits of `mq` are added up; the leading digit of the last one is not zero. -/
theorem addRows_spec (xs rest : List Int) (r : Nat) (hmp : Digits mp) (htop : mp.getLast? ≠ some 0) (hne : mp ≠ [])
    (hmq : Digits mq) (hxs : Digits xs) (hrest : Digits rest) (hlen : rest.length ≤ mp.length) :
    Digits (addRows mp mq xs.length ⟨xs ++ rest, r⟩).data ∧
    value (addRows mp mq xs.length ⟨xs ++ rest, r⟩).data =
      value (xs ++ rest) + 100 ^ xs.length * (value mp * value mq) ∧
    (mq.getLast? ≠ some 0 → mq ≠ [] → (addRows mp mq xs.length ⟨xs ++ rest, r⟩).data.getLast? ≠ some 0) := by
  induction mq generalizing xs rest r with
  | nil => exact ⟨hxs.append hrest, by simp [addRows, value], fun _ h => absurd rfl h⟩
  | cons cq mq ih =>
    obtain ⟨hcq, hcq'⟩ := hmq cq (.head _)
    obtain ⟨row, hrow, hrowd, hrowlen, hrowlen', hrowval, hrowtop⟩ :=
      row_spec hmp htop hne hcq hcq' hrest hlen xs
    rw [addRows]
    generalize endRow (addRow cq mp 0 ⟨xs ++ rest, xs.length⟩).1 (addRow cq mp 0 ⟨xs ++ rest, xs.length⟩).2 = mr'
      at hrow ⊢
    obtain ⟨data, r'⟩ := mr'
    obtain rfl : data = xs ++ row := hrow
    -- the first digit of the row is done
    obtain ⟨e, row, rfl⟩ : ∃ e row', row = e :: row' := by
      cases row with
      | nil => exact absurd hrowlen (by simpa using hne)
      | cons e row => exact ⟨e, row, rfl⟩
    have hnext := ih (xs ++ [e]) row r' (fun d hd => hmq d (.tail _ hd))
      (hxs.append (Digits.single (hrowd e (.head _)).1 (hrowd e (.head _)).2)) (fun d hd => hrowd d (.tail _ hd))
      (by simpa using hrowlen')
    rw [append_assoc, singleton_append, length_append, length_singleton] at hnext
    obtain ⟨hd, hv, htop'⟩ := hnext
    refine ⟨hd, ?_, fun hlast _ => ?_⟩
    · rw [hv, value_append, hrowval, value_append, value, pow_succ]
      ring
    · cases mq with
      | nil =>
        have hlast' := hrowtop (by simpa using hlast)
        rw [addRows, getLast?_append_cons]
        exact hlast'
      | cons d mq =>
        refine htop' ?_ (cons_ne_nil _ _)
        rwa [getLast?_cons_cons] at hlast

theorem mult_spec (p q : Blk) (hp : Normal p.data) (hq : Normal q.data) :
    value (mult p q).data = value p.data * value q.data ∧ Normal (mult p q).data := by
  obtain ⟨hdp, hlp, hvp⟩ := absolute_spec p hp
  obtain ⟨hdq, hlq, hvq⟩ := absolute_spec q hq
  -- the product of the absolute values
  obtain ⟨hval, hnormal⟩ : value (addRows (absolute p).1.data (absolute q).1.data 0 salloc).data =
        value (absolute p).1.data * value (absolute q).1.data ∧
      Normal (addRows (absolute p).1.data (absolute q).1.data 0 salloc).data := by
    by_cases hnp : (absolute p).1.data = []
    · rw [hnp, salloc, addRows_nil, value, zero_mul]
      exact ⟨rfl, .zero⟩
    obtain ⟨hd, hv, htop⟩ := addRows_spec [] [] 0 hdp hlp hnp hdq nofun nofun (zero_le _)
    rw [nil_append, length_nil] at hd hv htop
    refine ⟨by rw [salloc, hv, value, pow_zero, one_mul, zero_add], ?_⟩
    by_cases hnq : (absolute q).1.data = []
    · rw [hnq]
      exact .zero
    · exact .of_digits hd (htop hlq hnq)
  obtain ⟨hneg, hnegnormal⟩ := chsign_spec _ hnormal
  rw [mult, hvp, hvq]
  cases (absolute p).2 <;> cases (absolute q).2 <;> simp only [bne_self_eq_false, Bool.false_eq_true, if_false,
    if_true, Bool.true_bne, Bool.false_bne, Bool.not_false, hval, hneg]
  · exact ⟨trivial, hnormal⟩
  · exact ⟨by ring, hnegnormal⟩
  · exact ⟨by ring, hnegnormal⟩
  · exact ⟨by ring, hnormal⟩

/-! ### The three operations -/

theorem not_normal_99 : ¬Normal [99, -1] := by
  intro h
  generalize hl : [99, -1] = l at h
  cases h with
  | zero => cases hl
  | @pos ds d _ h1 _ =>
    have := congrArg getLast? hl
    rw [getLast?_concat] at this
    obtain rfl : -1 = d := some.inj this
    exact absurd h1 (by decide)
  | @neg ds _ hlast =>
    obtain rfl : [99] = ds := @append_cancel_right _ [99] [-1] ds hl
    exact hlast rfl

/-- The sum, the negation and the product are right and normalised for two numbers, unless their sum is -1. -/
theorem arith_iff (p q : Blk) (hp : Normal p.data) (hq : Normal q.data) :
    ((value (add p q).data = value p.data + value q.data ∧ Normal (add p q).data) ∧
      (value (chsign p).data = -value p.data ∧ Normal (chsign p).data) ∧
      value (mult p q).data = value p.data * value q.data ∧ Normal (mult p q).data) ↔
    value p.data + value q.data ≠ -1 := by
  obtain ⟨hval, hnormal, hminus⟩ := add_spec p q hp hq
  constructor
  · rintro ⟨⟨-, hadd⟩, -⟩ hsum
    rw [hminus hsum] at hadd
    exact not_normal_99 hadd
  · exact fun hsum => ⟨⟨hval, hnormal hsum⟩, chsign_spec p hp, mult_spec p q hp hq⟩

/-- Two numbers of different signs and lengths. -/
theorem arith_iff_ex :
    ((value (add ⟨[0, 95, -1], 0⟩ ⟨[7], 0⟩).data = -500 + 7 ∧ Normal (add ⟨[0, 95, -1], 0⟩ ⟨[7], 0⟩).data) ∧
      (value (chsign ⟨[0, 95, -1], 0⟩).data = 500 ∧ Normal (chsign ⟨[0, 95, -1], 0⟩).data) ∧
      value (mult ⟨[0, 95, -1], 0⟩ ⟨[7], 0⟩).data = -500 * 7 ∧ Normal (mult ⟨[0, 95, -1], 0⟩ ⟨[7], 0⟩).data) ↔
    (-500 + 7 : Int) ≠ -1 :=
  arith_iff ⟨[0, 95, -1], 0⟩ ⟨[7], 0⟩ (@Normal.neg [0, 95] (by simp [Digits]) (by decide))
    (@Normal.pos [] 7 (by simp [Digits]) (by decide) (by decide))

/-- The sum of -2 and 1 keeps a 99 before its leading -1. -/
theorem add_not_normal : Normal [98, -1] ∧ Normal [1] ∧ ¬Normal (add ⟨[98, -1], 0⟩ ⟨[1], 0⟩).data :=
  ⟨@Normal.neg [98] (by simp [Digits]) (by decide),
    @Normal.pos [] 1 (by simp [Digits]) (by decide) (by decide), not_normal_99⟩

end Svr42.Dc
