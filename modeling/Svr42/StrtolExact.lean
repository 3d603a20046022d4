import Svr42.Strtol
import Mathlib.Data.List.Infix
import Mathlib.Tactic.Linarith

/-! `strtol` accepts the longest text of the form and returns its value, or the nearest limit. -/

namespace Svr42.Strtol
open Bool Int List

variable {base b val limit : Int} {str s t : Str} {c d : UInt8} {neg : Bool}

/-! ### Digits -/

theorem long_eq (h0 : -0x80000000 ≤ val) (h : val < 0x80000000) : long val = val := by
  rw [long, bmod_def]
  omega

theorem isalnum_eq_lisalnum (c : UInt8) : isalnum c = lisalnum c := by
  simp only [isalnum, lisalnum, isupper, islower]
  cases isdigit c <;> simp [Bool.or_comm]

theorem DIGIT_bounds (h : lisalnum c = true) : 0 ≤ DIGIT c ∧ DIGIT c < 36 := by
  simp only [lisalnum, isdigit, or_eq_true, and_eq_true, decide_eq_true_eq, UInt8.le_iff_toNat_le] at h
  simp only [DIGIT, isdigit, islower, and_eq_true, decide_eq_true_eq, UInt8.le_iff_toNat_le]
  change ((48 ≤ c.toNat ∧ c.toNat ≤ 57) ∨ 97 ≤ c.toNat ∧ c.toNat ≤ 122) ∨ 65 ≤ c.toNat ∧ c.toNat ≤ 90 at h
  change 0 ≤ (if 48 ≤ c.toNat ∧ c.toNat ≤ 57 then _ else if 97 ≤ c.toNat ∧ c.toNat ≤ 122 then _ else _) ∧
    (if 48 ≤ c.toNat ∧ c.toNat ≤ 57 then _ else if 97 ≤ c.toNat ∧ c.toNat ≤ 122 then _ else _) < _
  split_ifs <;> omega

theorem isDigitOf_iff : isDigitOf b c = true ↔ lisalnum c = true ∧ DIGIT c < b := by
  rw [isDigitOf, and_eq_true, decide_eq_true_eq]

theorem DIGIT_nonneg (h : isDigitOf b c = true) : 0 ≤ DIGIT c :=
  (DIGIT_bounds (isDigitOf_iff.mp h).1).1

theorem not_isspace (h : isalnum c = true) : isspace c = false := by
  simp only [isalnum, isupper, islower, isdigit, or_eq_true, and_eq_true, decide_eq_true_eq,
    UInt8.le_iff_toNat_le] at h
  change ((65 ≤ c.toNat ∧ c.toNat ≤ 90) ∨ 97 ≤ c.toNat ∧ c.toNat ≤ 122) ∨ 48 ≤ c.toNat ∧ c.toNat ≤ 57 at h
  rw [eq_false_iff]
  simp only [isspace, ne_eq, or_eq_true, and_eq_true, decide_eq_true_eq, UInt8.le_iff_toNat_le,
    ← UInt8.toNat_inj]
  change ¬(c.toNat = 32 ∨ 9 ≤ c.toNat ∧ c.toNat ≤ 13)
  omega

theorem not_sign (h : isalnum c = true) : c ≠ minus ∧ c ≠ plus :=
  ⟨fun hc => absurd (hc ▸ h) (by decide), fun hc => absurd (hc ▸ h) (by decide)⟩

theorem isalnum_of_digit (h : isDigitOf b c = true) : isalnum c = true := by
  rw [isalnum_eq_lisalnum]
  exact (isDigitOf_iff.mp h).1

theorem isDigitOf_zero (h : 2 ≤ b) : isDigitOf b zero = true :=
  isDigitOf_iff.mpr ⟨by decide, by rw [show DIGIT zero = 0 by decide]; omega⟩

theorem not_digit_of_isX (hb : b ≤ 16) (h : isX c = true) : isDigitOf b c = false := by
  rw [isX, or_eq_true, decide_eq_true_eq, decide_eq_true_eq] at h
  rw [eq_false_iff, ne_eq, isDigitOf_iff]
  rintro ⟨-, hlt⟩
  obtain rfl | rfl := h
  · rw [show DIGIT lowerX = 33 by decide] at hlt
    omega
  · rw [show DIGIT upperX = 33 by decide] at hlt
    omega

theorem isxdigit_iff : isxdigit c = true ↔ isDigitOf 16 c = true := by
  rw [isDigitOf_iff]
  simp only [isxdigit, lisalnum, DIGIT, isdigit, islower, or_eq_true, and_eq_true, decide_eq_true_eq,
    UInt8.le_iff_toNat_le]
  change ((48 ≤ c.toNat ∧ c.toNat ≤ 57) ∨ 97 ≤ c.toNat ∧ c.toNat ≤ 102) ∨ 65 ≤ c.toNat ∧ c.toNat ≤ 70 ↔
    (((48 ≤ c.toNat ∧ c.toNat ≤ 57) ∨ 97 ≤ c.toNat ∧ c.toNat ≤ 122) ∨ 65 ≤ c.toNat ∧ c.toNat ≤ 90) ∧
    (if 48 ≤ c.toNat ∧ c.toNat ≤ 57 then _ else if 97 ≤ c.toNat ∧ c.toNat ≤ 122 then _ else _) < _
  split_ifs <;> omega

/-! ### The accumulated value -/

theorem value_cons (v : Int) (ds : Str) : value b v (c :: ds) = value b (v * b + DIGIT c) ds := rfl

theorem le_value (hb : 1 ≤ b) {ds : Str} (hds : ∀ c ∈ ds, isDigitOf b c = true) {v : Int} (hv : 0 ≤ v) :
    v ≤ value b v ds := by
  induction ds generalizing v with
  | nil => exact le_refl v
  | cons c ds ih =>
    have hdigit := DIGIT_nonneg (hds c (.head _))
    have hmul : v ≤ v * b := by nlinarith
    rw [value_cons]
    exact le_trans (by omega) (ih (fun c h => hds c (.tail _ h)) (by omega))

/-- What the loop finds in digits whose value passes the limit, or does not. -/
theorem accumulate_spec (limit : Int) (hb : 2 ≤ b) (hb' : b ≤ 36) (hlow : -0x80000000 ≤ limit)
    (hlimit : limit ≤ -0x7FFFFFFF) (str : Str) {v : Int} (hv : 0 ≤ v) (hv' : limit ≤ -v) :
    (value b v (str.takeWhile (isDigitOf b)) ≤ -limit → accumulate b (limit.tdiv b) limit (-v) str =
        (some (-value b v (str.takeWhile (isDigitOf b))), str.dropWhile (isDigitOf b))) ∧
    (-limit < value b v (str.takeWhile (isDigitOf b)) →
      ∃ r, accumulate b (limit.tdiv b) limit (-v) str = (none, r) ∧
        r.tail.dropWhile (isDigitOf b) = str.dropWhile (isDigitOf b)) := by
  induction str generalizing v with
  | nil =>
    refine ⟨fun _ => rfl, fun h => ?_⟩
    change -limit < v at h
    omega
  | cons c str ih =>
    rw [accumulate]
    by_cases hc : isDigitOf b c = true
    · have hdigit := DIGIT_nonneg hc
      have hdigit' := (DIGIT_bounds (isDigitOf_iff.mp hc).1).2
      have hrest := @le_value b (by omega) (str.takeWhile (isDigitOf b)) (fun _ => mem_takeWhile_imp)
        (v * b + DIGIT c) (by nlinarith)
      rw [takeWhile_cons_of_pos hc, dropWhile_cons_of_pos hc, value_cons, if_pos hc]
      -- the quotient is rounded towards zero: below it, and only there, the product passes the limit
      have hdiv : limit.tdiv b * b + limit.tmod b = limit := tdiv_mul_add_tmod limit b
      have hmod : -b < limit.tmod b := lt_tmod_of_pos limit (by omega)
      have hmod' : limit.tmod b ≤ 0 := by
        have := tmod_nonneg b (show 0 ≤ -limit by omega)
        rw [neg_tmod] at this
        omega
      by_cases hmin : -v < limit.tdiv b
      · rw [if_pos hmin]
        have hpass : -limit < v * b := by nlinarith
        refine ⟨fun h => ?_, fun _ => ⟨c :: str, rfl, rfl⟩⟩
        omega
      rw [if_neg hmin]
      have hfit : limit.tdiv b * b ≤ (-v) * b := mul_le_mul_of_nonneg_right (by omega) (by omega)
      have hneg : (-v) * b ≤ 0 := by nlinarith
      have hmul : long ((-v) * b) = (-v) * b := long_eq (by omega) (by omega)
      have hsum : long (limit + DIGIT c) = limit + DIGIT c := long_eq (by omega) (by omega)
      rw [hmul, hsum]
      by_cases hpass : (-v) * b < limit + DIGIT c
      · rw [if_pos hpass]
        refine ⟨fun h => ?_, fun _ => ⟨c :: str, rfl, rfl⟩⟩
        have hneg' : (-v) * b = -(v * b) := neg_mul v b
        omega
      · rw [if_neg hpass]
        have hneg' : (-v) * b = -(v * b) := neg_mul v b
        have hsub : long ((-v) * b - DIGIT c) = -(v * b + DIGIT c) := by
          rw [long_eq (by omega) (by omega)]
          omega
        rw [hsub]
        exact ih (by omega) (by omega)
    · rw [takeWhile_cons_of_neg hc, dropWhile_cons_of_neg hc, if_neg hc]
      refine ⟨fun _ => rfl, fun h => ?_⟩
      change -limit < v at h
      omega

/-- From the first digit on: all the digits are read, and their value is kept within the limits. -/
theorem number_spec (hb : 2 ≤ b) (hb' : b ≤ 36) (hc : isDigitOf b c = true) (str : Str) :
    number neg b (c :: str) = ⟨clamp (if neg then -value b 0 ((c :: str).takeWhile (isDigitOf b)) else
          value b 0 ((c :: str).takeWhile (isDigitOf b))),
        (c :: str).dropWhile (isDigitOf b),
        rangeError (if neg then -value b 0 ((c :: str).takeWhile (isDigitOf b)) else
          value b 0 ((c :: str).takeWhile (isDigitOf b)))⟩ := by
  have hdigit := DIGIT_nonneg hc
  have hdigit' := (DIGIT_bounds (isDigitOf_iff.mp hc).1).2
  rw [takeWhile_cons_of_pos hc, dropWhile_cons_of_pos hc, value_cons,
    show 0 * b + DIGIT c = DIGIT c by omega]
  have hpos := Int.le_trans hdigit (@le_value b (by omega) (str.takeWhile (isDigitOf b))
    (fun _ => mem_takeWhile_imp) (DIGIT c) hdigit)
  have hneg : (if neg then LONG_MIN else -LONG_MAX : Int) = if neg then -0x80000000 else -0x7FFFFFFF := rfl
  obtain ⟨hfits, hover⟩ := accumulate_spec (if neg then LONG_MIN else -LONG_MAX) hb hb'
    (by rw [hneg]; split_ifs <;> omega) (by rw [hneg]; split_ifs <;> omega) str hdigit
    (by rw [hneg]; split_ifs <;> omega)
  rw [number]
  dsimp only [deref, headD_cons, tail_cons]
  generalize value b (DIGIT c) (str.takeWhile (isDigitOf b)) = v at hpos hfits hover ⊢
  rcases Int.lt_or_le (-if neg then LONG_MIN else -LONG_MAX) v with hlt | hle
  · obtain ⟨r, hacc, hrest⟩ := hover hlt
    rw [hacc, finish, hrest, clamp, rangeError]
    cases neg <;> simp only [LONG_MIN, LONG_MAX, false_eq_true, if_true, if_false] at hlt ⊢
    · rw [if_neg (by omega), if_pos (by omega), if_pos (by omega)]
    · rw [if_pos (by omega), if_pos (by omega)]
  · rw [hfits hle, finish, clamp, rangeError]
    cases neg <;> simp only [LONG_MIN, LONG_MAX, false_eq_true, if_true, if_false] at hle ⊢
    · rw [if_neg (by omega), if_neg (by omega), if_neg (by omega), long_eq (by omega) (by omega), Int.neg_neg]
    · rw [if_neg (by omega), if_neg (by omega), if_neg (by omega)]

/-! ### White space and a sign -/

/-- What precedes a number is passed over. -/
theorem sign_text {space sgn : Str} (hspace : ∀ c ∈ space, isspace c = true)
    (hsgn : sgn = [] ∨ sgn = [plus] ∨ sgn = [minus]) (hs : isalnum (deref s) = true) :
    sign (space ++ (sgn ++ s)) = (decide (sgn = [minus]), s) := by
  have hsign := not_sign hs
  have hskip : (sgn ++ s).dropWhile isspace = sgn ++ s := by
    obtain rfl | rfl | rfl := hsgn
    · cases s with
      | nil => rfl
      | cons c s => exact dropWhile_cons_of_neg (by rw [show isspace c = false from not_isspace hs]; decide)
    · exact dropWhile_cons_of_neg (by decide)
    · exact dropWhile_cons_of_neg (by decide)
  have hdrop : (space ++ (sgn ++ s)).dropWhile isspace = sgn ++ s := by
    rw [dropWhile_append_of_pos hspace, hskip]
  rw [sign, hdrop]
  by_cases hfirst : isalnum (deref (space ++ (sgn ++ s))) = true
  · rw [if_pos hfirst]
    cases space with
    | nil =>
      obtain rfl | rfl | rfl := hsgn
      · rfl
      · exact absurd hfirst (show ¬isalnum plus = true by decide)
      · exact absurd hfirst (show ¬isalnum minus = true by decide)
    | cons c space =>
      have hc := hspace c (.head _)
      rw [show isspace c = false from not_isspace hfirst] at hc
      exact absurd hc (by decide)
  · rw [if_neg hfirst]
    obtain rfl | rfl | rfl := hsgn
    · rw [nil_append, if_neg hsign.1, if_neg hsign.2]
      rfl
    · rfl
    · rfl

/-- There is always white space and a sign, possibly none, before what `sign` leaves. -/
theorem sign_spec (str : Str) : ∃ space sgn, (∀ c ∈ space, isspace c = true) ∧
    (sgn = [] ∨ sgn = [plus] ∨ sgn = [minus]) ∧ str = space ++ (sgn ++ (sign str).2) ∧
    (sign str).1 = decide (sgn = [minus]) := by
  rw [sign]
  by_cases hfirst : isalnum (deref str) = true
  · rw [if_pos hfirst]
    exact ⟨[], [], nofun, .inl rfl, rfl, rfl⟩
  rw [if_neg hfirst]
  have hsplit : str = str.takeWhile isspace ++ str.dropWhile isspace := takeWhile_append_dropWhile.symm
  have hcons : ∀ {c : UInt8} {s : Str}, c ≠ 0 → deref s = c → s = [c] ++ s.tail := by
    intro c s hne hc
    cases s with
    | nil => exact absurd hc.symm hne
    | cons d s => exact congrArg (· :: s) hc
  refine ⟨str.takeWhile isspace, ?_⟩
  by_cases hminus : deref (str.dropWhile isspace) = minus
  · rw [if_pos hminus]
    refine ⟨[minus], fun _ => mem_takeWhile_imp, .inr (.inr rfl), ?_, rfl⟩
    rwa [← hcons (by decide) hminus]
  rw [if_neg hminus]
  split_ifs with hplus
  · refine ⟨[plus], fun _ => mem_takeWhile_imp, .inr (.inl rfl), ?_, rfl⟩
    rwa [← hcons (by decide) hplus]
  · exact ⟨[], fun _ => mem_takeWhile_imp, .inl rfl, hsplit, rfl⟩

/-! ### The longest text -/

theorem radix_bounds (hbase : base = 0 ∨ 2 ≤ base ∧ base ≤ 36) (s : Str) :
    2 ≤ radix base s ∧ radix base s ≤ 36 := by
  rw [radix]
  split_ifs <;> omega

theorem radix_of_ne (h : base ≠ 0) : radix base s = base := if_neg h

variable {pre ds : Str}

theorem Radix.first (h : Radix base pre ds b) (hbase : base = 0 ∨ 2 ≤ base ∧ base ≤ 36) (hne : ds ≠ [])
    (hds : ∀ c ∈ ds, isDigitOf b c = true) :
    isDigitOf (radix base (pre ++ ds ++ t)) (deref (pre ++ ds ++ t)) = true := by
  cases h with
  | plain hbase0 =>
    rw [radix_of_ne hbase0]
    cases ds with
    | nil => exact absurd rfl hne
    | cons d ds => exact hds d (.head _)
  | hex _ _ => exact isDigitOf_zero (radix_bounds hbase _).1
  | octal _ => exact isDigitOf_zero (radix_bounds hbase _).1
  | @decimal d ds hbase0 hd =>
    rw [radix, if_pos hbase0]
    change isDigitOf (if d ≠ zero then 10 else _) d = true
    rw [if_pos hd]
    exact hds d (.head _)

theorem cons_deref (hne : deref s ≠ 0) : s = deref s :: s.tail := by
  cases s with
  | nil => exact absurd rfl hne
  | cons c s => rfl

theorem ne_zero_of_isX (h : isX c = true) : c ≠ 0 := fun hc => absurd (hc ▸ h) (by decide)

theorem ne_zero_of_digit (h : isDigitOf b c = true) : c ≠ 0 :=
  fun hc => absurd (isDigitOf_iff.mp (hc ▸ h)).1 (by decide)

/-- What is skipped is a prefix that the base allows, and a digit follows. -/
theorem skip_spec (hfirst : isDigitOf (radix base s) (deref s) = true) :
    isDigitOf (radix base s) (deref (skip (radix base s) s)) = true ∧
    ∃ pre b, s = pre ++ skip (radix base s) s ∧
      Radix base pre ((skip (radix base s) s).takeWhile (isDigitOf (radix base s))) b ∧
      (∀ c ∈ (skip (radix base s) s).takeWhile (isDigitOf (radix base s)), isDigitOf b c = true) ∧
      value b 0 ((skip (radix base s) s).takeWhile (isDigitOf (radix base s))) =
        value (radix base s) 0 ((skip (radix base s) s).takeWhile (isDigitOf (radix base s))) := by
  have hs := cons_deref (ne_zero_of_digit hfirst)
  by_cases hskip : radix base s = 16 ∧ deref s = zero ∧ isX (deref s.tail) = true ∧
      isxdigit (deref s.tail.tail) = true
  · obtain ⟨h16, hzero, hx, hdigit⟩ := hskip
    rw [skip, if_pos ⟨h16, hzero, hx, hdigit⟩, h16]
    refine ⟨isxdigit_iff.mp hdigit, [zero, deref s.tail], 16, ?_, .hex ?_ hx, fun _ => mem_takeWhile_imp, rfl⟩
    · rw [← hzero]
      exact hs.trans (congrArg (deref s :: ·) (cons_deref (ne_zero_of_isX hx)))
    · by_cases h0 : base = 0
      · exact .inl h0
      · exact .inr ((radix_of_ne h0).symm.trans h16)
  rw [skip, if_neg hskip]
  refine ⟨hfirst, [], ?_⟩
  by_cases h0 : base = 0
  · by_cases hzero : deref s = zero
    · by_cases hx : isX (deref s.tail) = true
      · -- the prefix has no digit after it: the number is the zero alone
        have h16 : radix base s = 16 := by rw [radix, if_pos h0, if_neg (not_not_intro hzero), if_pos hx]
        have hone : s.takeWhile (isDigitOf (radix base s)) = [zero] := by
          rw [h16, hs, takeWhile_cons_of_pos (by rw [hzero]; decide), hzero,
            cons_deref (ne_zero_of_isX hx),
            takeWhile_cons_of_neg (by rw [not_digit_of_isX (by decide) hx]; decide)]
        rw [hone, h16]
        exact ⟨8, rfl, .octal h0, forall_mem_singleton.mpr (by decide), by decide⟩
      · have h8 : radix base s = 8 := by rw [radix, if_pos h0, if_neg (not_not_intro hzero), if_neg hx]
        rw [h8] at hfirst ⊢
        refine ⟨8, rfl, ?_, fun _ => mem_takeWhile_imp, rfl⟩
        rw [hs, takeWhile_cons_of_pos hfirst, hzero]
        exact .octal h0
    · have h10 : radix base s = 10 := by rw [radix, if_pos h0, if_pos hzero]
      rw [h10] at hfirst ⊢
      refine ⟨10, rfl, ?_, fun _ => mem_takeWhile_imp, rfl⟩
      rw [hs, takeWhile_cons_of_pos hfirst]
      exact .decimal h0 hzero
  · rw [radix_of_ne h0]
    exact ⟨base, rfl, .plain h0, fun _ => mem_takeWhile_imp, rfl⟩

theorem prefix_takeWhile {p : UInt8 → Bool} (hpre : ds <+: s) (hds : ∀ c ∈ ds, p c = true) :
    ds <+: s.takeWhile p := by
  obtain ⟨t, rfl⟩ := hpre
  rw [takeWhile_append_of_pos hds]
  exact prefix_append _ _

theorem digits_le {p : UInt8 → Bool} (hpre : ds <+: s) (hds : ∀ c ∈ ds, p c = true) :
    ds.length + (s.dropWhile p).length ≤ s.length ∧
    (ds.length + (s.dropWhile p).length = s.length → ds = s.takeWhile p) := by
  have hle := (prefix_takeWhile hpre hds).length_le
  have hlen : (s.takeWhile p).length + (s.dropWhile p).length = s.length := by
    rw [← length_append, takeWhile_append_dropWhile]
  exact ⟨by omega, fun h => (prefix_takeWhile hpre hds).eq_of_length (by omega)⟩

theorem digits_before_isX (hb : b ≤ 16) (hx : isX (deref s.tail) = true) (hpre : ds <+: s)
    (hds : ∀ c ∈ ds, isDigitOf b c = true) : ds.length ≤ 1 := by
  obtain ⟨t, rfl⟩ := hpre
  cases ds with
  | nil => exact Nat.zero_le 1
  | cons c ds =>
    cases ds with
    | nil => exact Nat.le_refl 1
    | cons d ds =>
      have hd := hds d (.tail _ (.head _))
      rw [show isDigitOf b d = false from not_digit_of_isX hb hx] at hd
      exact absurd hd (by decide)

/-- The text of a form ends no later than the routine stops, and when it ends there the values agree. -/
theorem Radix.le_skip (h : Radix base pre ds b) (hbase : base = 0 ∨ 2 ≤ base ∧ base ≤ 36) (hne : ds ≠ [])
    (hds : ∀ c ∈ ds, isDigitOf b c = true) (hpre : pre ++ ds <+: s) :
    (pre ++ ds).length + ((skip (radix base s) s).dropWhile (isDigitOf (radix base s))).length ≤ s.length ∧
    ((pre ++ ds).length + ((skip (radix base s) s).dropWhile (isDigitOf (radix base s))).length = s.length →
      value b 0 ds =
        value (radix base s) 0 ((skip (radix base s) s).takeWhile (isDigitOf (radix base s)))) := by
  have hrest : ((skip (radix base s) s).dropWhile (isDigitOf (radix base s))).length ≤
      (skip (radix base s) s).length := (dropWhile_sublist _).length_le
  -- a zero alone ends before the digits that follow a skipped prefix
  have halone : ∀ {b' : Int}, b' ≤ 16 → (∀ c ∈ ds, isDigitOf b' c = true) → pre = [] →
      (radix base s = 16 ∧ deref s = zero ∧ isX (deref s.tail) = true ∧ isxdigit (deref s.tail.tail) = true) →
      (pre ++ ds).length + ((skip (radix base s) s).dropWhile (isDigitOf (radix base s))).length < s.length := by
    rintro b' hb' hds' rfl hskip
    have hone : ds.length ≤ 1 := digits_before_isX hb' hskip.2.2.1 hpre hds'
    have htwo : 2 ≤ s.length := by
      have hs : s = deref s :: s.tail := cons_deref (by rw [hskip.2.1]; decide)
      have htail : s.tail = deref s.tail :: s.tail.tail := cons_deref (ne_zero_of_isX hskip.2.2.1)
      rw [hs, htail]
      exact Nat.le_add_left 2 _
    rw [skip, if_pos hskip, length_tail, length_tail] at hrest
    rw [skip, if_pos hskip, nil_append]
    omega
  cases h with
  | plain h0 =>
    rw [radix_of_ne h0] at halone ⊢
    by_cases hskip : base = 16 ∧ deref s = zero ∧ isX (deref s.tail) = true ∧ isxdigit (deref s.tail.tail) = true
    · have hlt := halone (by omega) hds rfl hskip
      exact ⟨hlt.le, fun h => absurd h hlt.ne⟩
    · rw [skip, if_neg hskip]
      obtain ⟨hle, heq⟩ := digits_le hpre hds
      exact ⟨hle, fun h => congrArg (value base 0) (heq h)⟩
  | @hex x _ hbase0 hx =>
    obtain ⟨t, rfl⟩ := hpre
    have h16 : radix base ([zero, x] ++ ds ++ t) = 16 := by
      obtain rfl | rfl := hbase0
      · change (if isX x = true then (16 : Int) else 8) = 16
        rw [if_pos hx]
      · rfl
    have hskip : skip 16 ([zero, x] ++ ds ++ t) = ds ++ t := by
      apply if_pos
      refine ⟨rfl, rfl, hx, isxdigit_iff.mpr ?_⟩
      cases ds with
      | nil => exact absurd rfl hne
      | cons d ds => exact hds d (.head _)
    rw [h16, hskip]
    obtain ⟨hle, heq⟩ := digits_le (prefix_append ds t) hds
    simp only [length_append, length_cons, length_nil] at hle heq ⊢
    exact ⟨by omega, fun h => congrArg (value 16 0) (heq (by omega))⟩
  | @octal ds hbase0 =>
    obtain ⟨t, rfl⟩ := hpre
    by_cases hx : isX (deref (ds ++ t)) = true
    · have h16 : radix base ([] ++ zero :: ds ++ t) = 16 := by
        rw [radix, if_pos hbase0]
        change (if zero ≠ zero then (10 : Int) else if isX (deref (ds ++ t)) = true then 16 else 8) = 16
        rw [if_neg (fun h => h rfl), if_pos hx]
      rw [h16] at halone hrest ⊢
      by_cases hskip : (16 : Int) = 16 ∧ deref ([] ++ zero :: ds ++ t) = zero ∧
          isX (deref ([] ++ zero :: ds ++ t).tail) = true ∧
          isxdigit (deref ([] ++ zero :: ds ++ t).tail.tail) = true
      · have hlt := halone (by decide) hds rfl hskip
        exact ⟨hlt.le, fun h => absurd h hlt.ne⟩
      · have hone := digits_before_isX (s := zero :: ds ++ t) (by decide) hx (prefix_append _ t) hds
        obtain rfl : ds = [] := length_eq_zero_iff.mp (by rw [length_cons] at hone; omega)
        have ht : t = deref t :: t.tail := cons_deref (ne_zero_of_isX hx)
        have htake : ([] ++ [zero] ++ t : Str).takeWhile (isDigitOf 16) = [zero] := by
          rw [ht]
          exact (takeWhile_cons_of_pos (by decide)).trans (congrArg (zero :: ·)
            (takeWhile_cons_of_neg (by
              rw [show isDigitOf 16 (deref t) = false from not_digit_of_isX (by decide) hx]
              decide)))
        have hdrop : ([] ++ [zero] ++ t : Str).dropWhile (isDigitOf 16) = t := by
          have := takeWhile_append_dropWhile (p := isDigitOf 16) (l := ([] ++ [zero] ++ t : Str))
          rw [htake] at this
          exact append_cancel_left this
        rw [skip, if_neg hskip, htake, hdrop]
        exact ⟨length_append.symm.le, fun _ => by decide⟩
    · have h8 : radix base ([] ++ zero :: ds ++ t) = 8 := by
        rw [radix, if_pos hbase0]
        change (if zero ≠ zero then (10 : Int) else if isX (deref (ds ++ t)) = true then 16 else 8) = 8
        rw [if_neg (fun h => h rfl), if_neg hx]
      rw [h8, skip, if_neg (fun h => absurd h.1 (by decide))]
      obtain ⟨hle, heq⟩ := digits_le (prefix_append (zero :: ds) t) hds
      exact ⟨hle, fun h => congrArg (value 8 0) (heq h)⟩
  | @decimal d ds hbase0 hd =>
    obtain ⟨t, rfl⟩ := hpre
    have h10 : radix base ([] ++ d :: ds ++ t) = 10 := by
      rw [radix, if_pos hbase0]
      exact if_pos hd
    rw [h10, skip, if_neg (fun h => absurd h.1 (by decide))]
    obtain ⟨hle, heq⟩ := digits_le (prefix_append (d :: ds) t) hds
    exact ⟨hle, fun h => congrArg (value 10 0) (heq h)⟩

/-! ### The longest text of the form is read -/

/-- The texts of a form at the start of the string all have the white space and the sign that are passed over. -/
theorem Form.parts {f : Form base} (hbase : base = 0 ∨ 2 ≤ base ∧ base ≤ 36) (h : f.text <+: str) :
    f.pre ++ f.digits <+: (sign str).2 ∧ (sign str).1 = decide (f.sgn = [minus]) ∧
    str.length = (f.space ++ f.sgn).length + (sign str).2.length ∧
    isDigitOf (radix base (sign str).2) (deref (sign str).2) = true := by
  obtain ⟨t, rfl⟩ := h
  have hfirst := f.base_ok.first (t := t) hbase f.nonempty f.digits_ok
  have htext : f.text ++ t = f.space ++ (f.sgn ++ (f.pre ++ f.digits ++ t)) := by
    rw [Form.text, append_assoc, append_assoc]
  rw [htext, sign_text f.space_ok f.sgn_ok (isalnum_of_digit hfirst)]
  refine ⟨prefix_append _ t, rfl, ?_, hfirst⟩
  rw [← append_assoc f.space, length_append]

/-- For every base, `strtol` reads the longest text of the form at the start of the string, stores its end and
returns its value, or the nearest limit with `ERANGE`. With no such text it returns zero and the start. -/
theorem strtol_longest (base : Int) (str : Str) (hbase : base = 0 ∨ 2 ≤ base ∧ base ≤ 36) :
    (∀ f : Form base, f.Longest str →
      strtol base str = ⟨clamp f.val, str.drop f.text.length, rangeError f.val⟩) ∧
    ((∀ f : Form base, ¬f.text <+: str) → strtol base str = ⟨0, str, none⟩) := by
  have hvalid : ¬(base < 0 ∨ MBASE < base ∨ base = 1) := by
    simp only [MBASE]
    omega
  rw [strtol, if_neg hvalid]
  dsimp only
  split_ifs with hfirst
  · obtain ⟨space, sgn, hspace, hsgn, hstr, hneg⟩ := sign_spec str
    obtain ⟨hdigit, pre, b, hpre, hradix, hdigits, hvalue⟩ := skip_spec hfirst
    generalize hs : (sign str).2 = s at *
    generalize hb : radix base s = r at *
    generalize ht : skip r s = t at *
    -- the form that the routine reads
    have hcons := cons_deref (ne_zero_of_digit hdigit)
    let g : Form base := ⟨space, sgn, pre, t.takeWhile (isDigitOf r), b, hspace, hsgn, hradix, by
      rw [hcons, takeWhile_cons_of_pos hdigit]
      exact cons_ne_nil _ _, hdigits⟩
    have hg : str = g.text ++ t.dropWhile (isDigitOf r) := by
      rw [hstr, hpre, ← takeWhile_append_dropWhile (p := isDigitOf r) (l := t)]
      simp only [g, Form.text, append_assoc, takeWhile_append_dropWhile]
    have hr := radix_bounds hbase s
    rw [hb] at hr
    rw [hcons, number_spec hr.1 hr.2 hdigit, ← hcons, ← hvalue]
    constructor
    · intro f hf
      obtain ⟨hin, hneg', hlen, -⟩ := f.parts hbase hf.1
      rw [hs] at hin hlen
      obtain ⟨hle, hsame⟩ := f.base_ok.le_skip hbase f.nonempty f.digits_ok hin
      rw [hb, ht] at hle hsame
      have hlonger := hf.2 g ⟨_, hg.symm⟩
      have hstrlen := congrArg List.length hg
      have hflen : f.text.length = (f.space ++ f.sgn).length + (f.pre ++ f.digits).length := by
        rw [← length_append, Form.text, append_assoc]
      rw [length_append] at hstrlen
      have hval : f.val = if (sign str).1 = true then -value b 0 (t.takeWhile (isDigitOf r))
          else value b 0 (t.takeWhile (isDigitOf r)) := by
        rw [hneg', Form.val, hsame (by omega), hvalue]
        simp only [decide_eq_true_eq]
      have hend : str.drop f.text.length = t.dropWhile (isDigitOf r) := by
        rw [show f.text.length = g.text.length by omega, hg, drop_left]
      rw [hval, hend]
    · intro h
      exact absurd ⟨_, hg.symm⟩ (h g)
  · exact ⟨fun f hf => absurd (f.parts hbase hf.1).2.2.2 hfirst, fun _ => rfl⟩

/-- White space, a sign and a prefix before a digit, and more after it. -/
theorem strtol_longest_hex :
    ((∀ f : Form 0, f.Longest [32, 45, 48, 120, 49, 103] → strtol 0 [32, 45, 48, 120, 49, 103] =
        ⟨clamp f.val, [32, 45, 48, 120, 49, 103].drop f.text.length, rangeError f.val⟩) ∧
    ((∀ f : Form 0, ¬f.text <+: [32, 45, 48, 120, 49, 103]) →
      strtol 0 [32, 45, 48, 120, 49, 103] = ⟨0, [32, 45, 48, 120, 49, 103], none⟩)) ∧
    strtol 0 [32, 45, 48, 120, 49, 103] = ⟨-1, [103], none⟩ :=
  ⟨strtol_longest 0 _ (.inl rfl), by decide⟩

end Svr42.Strtol
