import Mathlib.Data.List.TakeWhile
import Mathlib.Data.Nat.Log
import Mathlib.Algebra.Group.Nat.Even

/-! `strecpy` and `strccpy`, as `streadd` and `strcadd` do the work. A string is the list of its bytes before the
terminator; `char` is signed. -/

namespace Svr42.Strecpy
open List Nat Option

abbrev Str := List UInt8

def bslash : UInt8 := 92

/-! ### Expansion -/

/-- The output up to `pout`, and what was written from there on. -/
structure Out where
  done : Str
  beyond : Str

def Out.put (o : Out) (c : UInt8) : Out := ⟨o.done ++ [c], o.beyond.tail⟩

/-- `sprintf` writes a string with its terminator; `pout` goes on by 3. -/
def Out.sprintf (o : Out) (s : Str) : Out :=
  let text := s ++ 0 :: o.beyond.drop (s.length + 1)
  ⟨o.done ++ text.take 3, text.drop 3⟩

/-- How many bytes of the output have been written. -/
def Out.extent (o : Out) : Nat := o.done.length + o.beyond.length

/-- The value of `c`, which is unsigned, for a byte of the input. -/
def ext (b : UInt8) : Nat := if b < 128 then b.toNat else 2 ^ 32 - 256 + b.toNat

/-- The table has an entry for -1. What `before` says is read from in front of it. -/
def isprint (before : Nat → Bool) (c : Nat) : Bool :=
  if c < 256 then decide (32 ≤ c ∧ c ≤ 126) else if c = 2 ^ 32 - 1 then false else before c

/-- `%.3o`. -/
def octal (c : Nat) : Str :=
  (range (max 3 (Nat.log 8 c + 1))).reverse.map fun i => UInt8.ofNat (48 + c / 8 ^ i % 8)

/-- The letters of the escapes: `\\n`, `\\t`, `\\b`, `\\r`, `\\f`, `\\v` and `\\a`. -/
def letters : List (UInt8 × UInt8) := [(10, 110), (9, 116), (8, 98), (13, 114), (12, 102), (11, 118), (7, 97)]

/-- A null `except` is like an empty one. -/
def expand (before : Nat → Bool) (except : Str) (o : Out) (b : UInt8) : Out :=
  if isprint before (ext b) = false ∧ b ∉ except then
    match letters.find? (·.1 = b) with
    | some l => (o.put bslash).put l.2
    | none => if b = bslash then o.put bslash else (o.put bslash).sprintf (octal (ext b))
  else if b = bslash ∧ b ∉ except then (o.put bslash).put b
  else o.put b

def streadd (before : Nat → Bool) (except : Str) (pin : Str) : Out :=
  let o := pin.foldl (expand before except) ⟨[], []⟩
  ⟨o.done, 0 :: o.beyond.tail⟩

/-- The string that the caller finds in the output. -/
def strecpy (before : Nat → Bool) (except pin : Str) : Str :=
  (streadd before except pin).done.takeWhile (· ≠ 0)

/-! ### Compression -/

def isOctal (c : UInt8) : Bool := decide (48 ≤ c) && decide (c ≤ 55)

/-- The digits after the first. -/
def digits (count wd : Nat) : Str → Nat × Str
  | [] => (wd, [])
  | c :: pin =>
      if isOctal c = true then
        if count + 1 > 1 then (wd * 8 + (c.toNat - 48), pin)
        else digits (count + 1) (wd * 8 + (c.toNat - 48)) pin
      else (wd, c :: pin)

theorem digits_suffix (count wd : Nat) (pin : Str) :
    ∃ ds, pin = ds ++ (digits count wd pin).2 ∧ bslash ∉ ds := by
  have hne : ∀ c : UInt8, isOctal c = true → bslash ≠ c := by
    rintro c hc rfl
    exact absurd hc (by decide)
  induction pin generalizing count wd with
  | nil => exact ⟨[], rfl, not_mem_nil⟩
  | cons c pin ih =>
    rw [digits]
    split_ifs with hc hcount
    · exact ⟨[c], rfl, by simpa using hne c hc⟩
    · obtain ⟨ds, hds, hno⟩ := ih (count + 1) (wd * 8 + (c.toNat - 48))
      exact ⟨c :: ds, congrArg (c :: ·) hds, by simpa using ⟨hne c hc, hno⟩⟩
    · exact ⟨[], rfl, not_mem_nil⟩

/-- None where the loop goes on behind the terminator, which it has taken for a character after a backslash. -/
def strcadd : Str → Option Str
  | [] => some []
  | c :: pin =>
      if c ≠ bslash then (strcadd pin).map (c :: ·)
      else
        match pin with
        | [] => none
        | e :: pin =>
            if isOctal e = true then
              (strcadd (digits 0 (e.toNat - 48) pin).2).map
                (UInt8.ofNat (digits 0 (e.toNat - 48) pin).1 :: ·)
            else (strcadd pin).map ((letters.find? (·.2 = e)).elim e Prod.fst :: ·)
termination_by pin => pin.length
decreasing_by
  · exact Nat.lt_succ_self _
  · obtain ⟨ds, hds, -⟩ := digits_suffix 0 (e.toNat - 48) pin
    have hlen := congrArg length hds
    rw [length_append] at hlen
    simp only [length_cons]
    omega
  · exact Nat.lt_succ_of_lt (Nat.lt_succ_self _)

/-! ### Escapes at the end -/

/-- The number of backslashes at the end. -/
def trailing (t : Str) : Nat := (t.reverse.takeWhile (· = bslash)).length

variable {before : Nat → Bool} {except : Str} {u v p q r s t : Str} {b c d e : UInt8}

theorem trailing_skip (he : e ≠ bslash) : trailing (u ++ e :: t) = trailing t := by
  unfold trailing
  rw [reverse_append, reverse_cons, append_assoc, takeWhile_append]
  split_ifs with hall
  · rw [singleton_append, takeWhile_cons_of_neg (by simpa using he), append_nil, ( takeWhile_prefix _).eq_of_length hall]
  · rfl

/-- A backslash after a backslash leaves what the rest of the string ends with. -/
theorem even_trailing : Even (trailing (bslash :: bslash :: t)) ↔ Even (trailing t) := by
  unfold trailing
  rw [reverse_cons, reverse_cons, append_assoc, takeWhile_append]
  split_ifs with hall
  · have htwo : ([bslash] ++ [bslash]).takeWhile (· = bslash) = [bslash, bslash] := by decide
    rw [hall, htwo, length_append]
    exact even_add.trans (iff_true_right (by decide))
  · rfl

theorem trailing_digits (ds : Str) (h : bslash ∉ ds) : trailing (ds ++ t) = trailing t := by
  induction ds with
  | nil => rfl
  | cons c ds ih =>
    have hc : c ≠ bslash := fun heq => h (heq ▸ (.head _))
    exact (trailing_skip (u := []) hc).trans (ih fun hm => h (.tail c hm))

/-- `strccpy` stays within its input exactly if the backslashes at the end pair up. -/
theorem strcadd_isSome (t : Str) : (strcadd t).isSome = true ↔ Even (trailing t) := by
  fun_induction strcadd t with
  | case1 => simp [trailing]
  | case2 c pin hc ih => rw [isSome_map, ih, ← trailing_skip (u := []) hc, nil_append]
  | case3 c hc =>
    obtain rfl := not_not.mp hc
    have hodd : ¬ Even (trailing [bslash]) := by decide
    exact iff_of_false Bool.false_ne_true hodd
  | case4 c hc e pin he ih =>
    obtain rfl := not_not.mp hc
    have hne : e ≠ bslash := by
      rintro rfl
      exact absurd he (by decide)
    obtain ⟨ds, hds, hno⟩ := digits_suffix 0 (e.toNat - 48) pin
    rw [isSome_map, ih, ← trailing_digits ds hno, ← hds]
    exact (iff_of_eq (congrArg Even (trailing_skip (u := [bslash]) hne))).symm
  | case5 c hc e pin he ih =>
    obtain rfl := not_not.mp hc
    rw [isSome_map, ih]
    by_cases hbs : e = bslash
    · rw [hbs]
      exact even_trailing.symm
    · exact (iff_of_eq (congrArg Even (trailing_skip (u := [bslash]) hbs))).symm

/-! ### What a byte is expanded to -/

/-- The bytes left in the output for `b`. -/
def code (before : Nat → Bool) (except : Str) (b : UInt8) : Str :=
  if isprint before (ext b) = false ∧ b ∉ except then
    match letters.find? (·.1 = b) with
    | some l => [bslash, l.2]
    | none => if b = bslash then [bslash] else bslash :: (octal (ext b)).take 3
  else if b = bslash ∧ b ∉ except then [bslash, b]
  else [b]

/-- The number of bytes written for `b`: `sprintf` may write more than are left. -/
def written (before : Nat → Bool) (except : Str) (b : UInt8) : Nat :=
  if isprint before (ext b) = false ∧ b ∉ except then
    match letters.find? (·.1 = b) with
    | some _ => 2
    | none => if b = bslash then 1 else (octal (ext b)).length + 2
  else if b = bslash ∧ b ∉ except then 2
  else 1

/-- A byte above 127 that is expanded: it is printed as a number of eleven digits. -/
def High (before : Nat → Bool) (except : Str) (b : UInt8) : Prop :=
  128 ≤ b ∧ isprint before (ext b) = false ∧ b ∉ except

theorem octal_length (c : Nat) : 3 ≤ (octal c).length := by
  unfold octal
  rw [length_map, length_reverse, length_range]
  exact le_max_left _ _

/-- `f` puts `s` at the end of the output, and writes `n` bytes from there. -/
def Adds (f : Out → Out) (s : Str) (n : Nat) : Prop :=
  ∀ o, (f o).done = o.done ++ s ∧ (f o).extent = max o.extent (o.done.length + n)

theorem put_adds (c : UInt8) : Adds (·.put c) [c] 1 := by
  refine fun o => ⟨rfl, ?_⟩
  simp only [Out.put, Out.extent, length_append, length_singleton, length_tail]
  omega

theorem sprintf_adds (hs : 3 ≤ s.length) : Adds (·.sprintf s) (s.take 3) (s.length + 1) := by
  refine fun o => ⟨?_, ?_⟩
  · simp only [Out.sprintf, take_append_of_le_length hs]
  · simp only [Out.sprintf, Out.extent, length_append, length_take, length_drop, length_cons]
    omega

theorem Adds.comp {f g : Out → Out} {m n : Nat} (hf : Adds f s m) (hg : Adds g t n) :
    Adds (fun o => g (f o)) (s ++ t) (max m (s.length + n)) := by
  intro o
  rw [(hg _).1, (hg _).2, (hf o).1, (hf o).2, append_assoc, length_append]
  exact ⟨rfl, by omega⟩

theorem expand_adds (before : Nat → Bool) (except : Str) (b : UInt8) :
    Adds (expand before except · b) (code before except b) (written before except b) := by
  have hlen := octal_length (ext b)
  unfold code written expand
  split_ifs
  · cases letters.find? (·.1 = b) with
    | some l => exact (put_adds bslash).comp (put_adds l.2)
    | none => exact put_adds bslash
  · cases letters.find? (·.1 = b) with
    | some l => exact (put_adds bslash).comp (put_adds l.2)
    | none =>
      have hadds := (put_adds bslash).comp (sprintf_adds hlen)
      rw [length_singleton, max_eq_right (by omega), add_comm] at hadds
      exact hadds
  · exact (put_adds bslash).comp (put_adds b)
  · exact put_adds b

theorem foldl_spec (before : Nat → Bool) (except : Str) (o : Out) (s : Str) :
    (s.foldl (expand before except) o).done = o.done ++ s.flatMap (code before except) ∧
      ∀ n, (s.foldl (expand before except) o).extent ≤ n ↔ o.extent ≤ n ∧ ∀ p b q, s = p ++ b :: q →
        o.done.length + (p.flatMap (code before except)).length + written before except b ≤ n := by
  induction s generalizing o with
  | nil => simp
  | cons c s ih =>
    obtain ⟨hdone, hextent⟩ := expand_adds before except c o
    rw [foldl_cons, (ih _).1, hdone, flatMap_cons, append_assoc]
    refine ⟨rfl, fun n => ?_⟩
    rw [(ih _).2, hextent, hdone, Nat.max_le, and_assoc]
    refine and_congr_right' ?_
    constructor
    · rintro ⟨hhead, hrest⟩ p b q heq
      cases p with
      | nil =>
        obtain ⟨rfl, rfl⟩ := cons.inj heq
        simpa using hhead
      | cons d p =>
        obtain ⟨rfl, rfl⟩ := cons.inj heq
        have hle := hrest p b q rfl
        simp only [length_append, flatMap_cons] at hle ⊢
        omega
    · intro hall
      refine ⟨by simpa using hall [] c s rfl, ?_⟩
      rintro p b q rfl
      have hle := hall (c :: p) b q rfl
      simp only [length_append, flatMap_cons] at hle ⊢
      omega

/-! ### The way back -/

theorem octal_low (hb : b < 128) : octal (ext b) =
    [UInt8.ofNat (48 + b.toNat / 64), UInt8.ofNat (48 + b.toNat / 8 % 8), UInt8.ofNat (48 + b.toNat % 8)] := by
  have hlt : b.toNat < 128 := UInt8.lt_iff_toNat_lt.mp hb
  have hlog : Nat.log 8 b.toNat < 3 := Nat.log_lt_of_lt_pow' (by decide) (by omega)
  have hmod : b.toNat / 64 % 8 = b.toNat / 64 := Nat.mod_eq_of_lt (by omega)
  rw [octal, ext, if_pos hb, Nat.max_eq_left (by omega)]
  simp [show range 3 = [0, 1, 2] from rfl, hmod]

theorem octal_high (hb : ¬ b < 128) : (octal (ext b)).take 3 = [51, 55, 55] ∧ (octal (ext b)).length = 11 := by
  have hlt : b.toNat < 256 := UInt8.toNat_lt b
  have hlog : log 8 (2 ^ 32 - 256 + b.toNat) = 10 :=
    (log_eq_iff (.inl (by decide))).mpr ⟨by omega, by omega⟩
  rw [octal, ext, if_neg hb, hlog]
  have h10 : (2 ^ 32 - 256 + b.toNat) / 8 ^ 10 % 8 = 3 := by omega
  have h9 : (2 ^ 32 - 256 + b.toNat) / 8 ^ 9 % 8 = 7 := by omega
  have h8 : (2 ^ 32 - 256 + b.toNat) / 8 ^ 8 % 8 = 7 := by omega
  rw [show (range (max 3 (10 + 1))).reverse = [10, 9, 8, 7, 6, 5, 4, 3, 2, 1, 0] from rfl]
  simp only [map_cons, h10, h9, h8]
  exact ⟨rfl, rfl⟩

theorem strcadd_octal (hc : isOctal c = true) (hd : isOctal d = true) (he : isOctal e = true) :
    strcadd (bslash :: c :: d :: e :: r) =
      (strcadd r).map (UInt8.ofNat (((c.toNat - 48) * 8 + (d.toNat - 48)) * 8 + (e.toNat - 48)) :: ·) := by
  have hdigits : digits 0 (c.toNat - 48) (d :: e :: r) =
      (((c.toNat - 48) * 8 + (d.toNat - 48)) * 8 + (e.toNat - 48), r) := by
    rw [digits, if_pos hd, if_neg (by decide), digits, if_pos he, if_pos (by decide)]
  rw [strcadd, if_neg (fun h => h rfl)]
  rw [if_pos hc, hdigits]

theorem strcadd_escape (he : isOctal e = false) :
    strcadd (bslash :: e :: r) = (strcadd r).map ((letters.find? (·.2 = e)).elim e Prod.fst :: ·) := by
  rw [strcadd, if_neg (fun h => h rfl)]
  rw [if_neg (Bool.eq_false_iff.mp he)]

instance : Decidable (High before except b) := inferInstanceAs (Decidable (_ ∧ _ ∧ _))

/-- What `strccpy` makes of the expansion of `b`. -/
def back (before : Nat → Bool) (except : Str) (b : UInt8) : UInt8 := if High before except b then 255 else b

theorem letters_spec : ∀ x ∈ letters, x.2 ≠ 0 ∧ x.1 < 128 ∧ isOctal x.2 = false ∧
    (letters.find? (·.2 = x.2)).elim x.2 Prod.fst = x.1 := by
  intro x hx
  simp only [letters, mem_cons, not_mem_nil, or_false] at hx
  rcases hx with rfl | rfl | rfl | rfl | rfl | rfl | rfl <;> decide

theorem octal_digit : ∀ n < 8, isOctal (UInt8.ofNat (48 + n)) = true ∧ (UInt8.ofNat (48 + n)).toNat - 48 = n ∧
    UInt8.ofNat (48 + n) ≠ 0 := by
  decide

/-- What becomes of a byte's expansion `s`, of which `n` bytes are written. -/
structure Expands (before : Nat → Bool) (except : Str) (b : UInt8) (s : Str) (n : Nat) : Prop where
  nonzero : 0 ∉ s
  length : s.length ≤ 4
  low : ¬ High before except b → n ≤ 5
  high : High before except b → n = 13
  back : ∀ r, strcadd (s ++ r) = (strcadd r).map (back before except b :: ·)

theorem Expands.of_low {n : Nat} (hhigh : ¬ High before except b) (hzero : 0 ∉ s) (hlen : s.length ≤ 4) (hn : n ≤ 5)
    (h : ∀ r, strcadd (s ++ r) = (strcadd r).map (b :: ·)) : Expands before except b s n where
  nonzero := hzero
  length := hlen
  low _ := hn
  high hh := absurd hh hhigh
  back r := by
    rw [h r, Strecpy.back, if_neg hhigh]

theorem expands (before : Nat → Bool) (hexc : bslash ∉ except) (hb : b ≠ 0) :
    Expands before except b (code before except b) (written before except b) := by
  have hbs : isprint before (ext bslash) = true := rfl
  unfold code written
  by_cases hx : isprint before (ext b) = false ∧ b ∉ except
  · have hne : b ≠ bslash := by
      rintro rfl
      exact Bool.false_ne_true (hx.1.symm.trans hbs)
    rw [if_pos hx, if_pos hx]
    cases hl : letters.find? (·.1 = b) with
    | some l =>
      obtain ⟨hl0, hlow, hoct, hback⟩ := letters_spec l (mem_of_find?_eq_some hl)
      have heq : l.1 = b := by simpa using find?_some hl
      refine .of_low (fun h => ?_) (by simpa [bslash] using hl0.symm) (by simp) (by simp) fun r => ?_
      · exact absurd hlow (UInt8.not_lt.mpr (heq ▸ h.1))
      · rw [← heq, ← hback]
        exact strcadd_escape hoct
    | none =>
      rw [if_neg hne, if_neg hne]
      by_cases hlow : b < 128
      · have hlt : b.toNat < 128 := UInt8.lt_iff_toNat_lt.mp hlow
        obtain ⟨h1, hv1, hz1⟩ := octal_digit (b.toNat / 64) (by omega)
        obtain ⟨h2, hv2, hz2⟩ := octal_digit (b.toNat / 8 % 8) (by omega)
        obtain ⟨h3, hv3, hz3⟩ := octal_digit (b.toNat % 8) (by omega)
        rw [octal_low hlow]
        refine .of_low (fun h => absurd hlow (UInt8.not_lt.mpr h.1)) ?_ (by simp) (by simp) fun r => ?_
        · simp only [take_succ_cons, take_zero, mem_cons, not_mem_nil, or_false, not_or]
          exact ⟨by decide, hz1.symm, hz2.symm, hz3.symm⟩
        · change strcadd (bslash :: _ :: _ :: _ :: r) = _
          have hval : (b.toNat / 64 * 8 + b.toNat / 8 % 8) * 8 + b.toNat % 8 = b.toNat := by omega
          rw [strcadd_octal h1 h2 h3, hv1, hv2, hv3, hval, UInt8.ofNat_toNat]
      · obtain ⟨htake, hlen⟩ := octal_high hlow
        have hhigh : High before except b := ⟨UInt8.not_lt.mp hlow, hx⟩
        rw [htake, hlen]
        refine ⟨by decide, by decide, fun h => absurd hhigh h, fun _ => rfl, fun r => ?_⟩
        rw [back, if_pos hhigh]
        exact strcadd_octal rfl rfl rfl
  · have hhigh : ¬ High before except b := fun h => hx h.2
    rw [if_neg hx, if_neg hx]
    by_cases hbk : b = bslash ∧ b ∉ except
    · rw [if_pos hbk, if_pos hbk, hbk.1]
      exact .of_low (hbk.1 ▸ hhigh) (by decide) (by decide) (by decide) fun r => strcadd_escape rfl
    · have hne : b ≠ bslash := fun heq => hbk ⟨heq, heq ▸ hexc⟩
      rw [if_neg hbk, if_neg hbk]
      refine .of_low hhigh (by simpa using hb.symm) (by simp) (by simp) fun r => ?_
      cases r <;> exact (strcadd.eq_def (b :: _)).trans (if_pos hne)

section

variable (hexc : bslash ∉ except) (hs : (0 : UInt8) ∉ s)
include hexc hs

theorem strecpy_eq : strecpy before except s = s.flatMap (code before except) := by
  unfold strecpy streadd
  rw [(foldl_spec before except _ s).1, nil_append, takeWhile_eq_self_iff]
  intro c hc
  obtain ⟨b, hb, hmem⟩ := mem_flatMap.mp hc
  have hzero := (expands before hexc fun h => hs (h ▸ hb)).nonzero
  have hc : c ≠ 0 := fun h => hzero (h ▸ hmem)
  simpa using hc

theorem strcadd_strecpy : strcadd (strecpy before except s) = some (s.map (back before except)) := by
  rw [strecpy_eq hexc hs]
  induction s with
  | nil => rw [flatMap_nil, strcadd, map_nil]
  | cons b s ih =>
    have hb : b ≠ 0 := fun h => hs (h ▸ (.head _))
    rw [flatMap_cons, (expands before hexc hb).back, ih fun h => hs (.tail b h)]
    rfl

variable (before) in
theorem flatMap_length : (s.flatMap (code before except)).length ≤ 4 * s.length := by
  induction s with
  | nil => exact zero_le _
  | cons b s ih =>
    have hlen := (expands before hexc (fun h => hs (h ▸ (.head _)) : b ≠ 0)).length
    have hrest := ih fun h => hs (.tail b h)
    rw [flatMap_cons, length_append, length_cons]
    omega

theorem streadd_extent : (streadd before except s).extent ≤ 4 * s.length + 1 ↔ ∀ p b q, s = p ++ b :: q →
      (p.flatMap (code before except)).length + written before except b ≤ 4 * s.length + 1 := by
  have hlen := flatMap_length before hexc hs
  obtain ⟨hdone, hextent⟩ := foldl_spec before except ⟨[], []⟩ s
  have hext := hextent (4 * s.length + 1)
  simp only [length_nil, zero_add] at hext
  have hstart : (⟨[], []⟩ : Out).extent ≤ 4 * s.length + 1 := zero_le _
  rw [iff_true_intro hstart, true_and] at hext
  rw [← hext]
  unfold streadd Out.extent
  rw [hdone, nil_append, length_cons, length_tail]
  omega

end

/-- The bytes of `s` above 127 that are expanded are 255, with room behind them for what `sprintf` writes. -/
def Fits (before : Nat → Bool) (except s : Str) : Prop :=
  ∀ p b q, s = p ++ b :: q → High before except b →
    b = 255 ∧ (p.flatMap (code before except)).length + 12 ≤ 4 * s.length

theorem strecpy_iff (hexc : bslash ∉ except) (hs : (0 : UInt8) ∉ s) :
    (strcadd (strecpy before except s) = some s ∧ (streadd before except s).extent ≤ 4 * s.length + 1) ↔
      Fits before except s := by
  have hmap : s.map (back before except) = s ↔ ∀ b ∈ s, back before except b = b := by
    conv_lhs => rhs; rw [← map_id s]
    exact map_inj_left
  rw [strcadd_strecpy hexc hs, streadd_extent hexc hs, some.injEq, hmap]
  constructor
  · rintro ⟨hback, hroom⟩ p b q rfl hhigh
    have hb := hback b (mem_append_right p (.head _))
    rw [back, if_pos hhigh] at hb
    have hle := hroom p b q rfl
    rw [(expands before hexc fun h => hs (h ▸ mem_append_right p (.head _))).high hhigh] at hle
    exact ⟨hb.symm, by omega⟩
  · intro hfits
    constructor
    · intro b hb
      obtain ⟨p, q, rfl⟩ := append_of_mem hb
      rw [back]
      split_ifs with hhigh
      · exact (hfits p b q rfl hhigh).1.symm
      · rfl
    · rintro p b q rfl
      have hexp := expands before (b := b) hexc fun h => hs (h ▸ mem_append_right p (.head _))
      by_cases hhigh : High before except b
      · have hle := (hfits p b q rfl hhigh).2
        rw [hexp.high hhigh]
        omega
      · have hle := hexp.low hhigh
        have hlen := flatMap_length before (s := p) hexc fun h => hs (mem_append_left _ h)
        rw [length_append, length_cons]
        omega

/-- The round trip and the room for the output fail exactly for expanded bytes above 127, and the input is read
beyond its end exactly if it ends in a backslash that quotes nothing. -/
theorem strccpy_strecpy_iff (before : Nat → Bool) (except : Str) (hexc : bslash ∉ except) :
    (∀ s : Str, 0 ∉ s →
      ((strcadd (strecpy before except s) = some s ∧ (streadd before except s).extent ≤ 4 * s.length + 1) ↔
        Fits before except s)) ∧
      ∀ t : Str, (strcadd t).isSome = true ↔ Even (trailing t) :=
  ⟨fun _ hs => strecpy_iff hexc hs, strcadd_isSome⟩

theorem strccpy_strecpy_iff_tab : (∀ s : Str, 0 ∉ s →
      ((strcadd (strecpy (fun _ => false) [9] s) = some s ∧
          (streadd (fun _ => false) [9] s).extent ≤ 4 * s.length + 1) ↔ Fits (fun _ => false) [9] s)) ∧
      ∀ t : Str, (strcadd t).isSome = true ↔ Even (trailing t) :=
  strccpy_strecpy_iff _ [9] (by decide)

/-- The byte 200 comes back as 255, 13 bytes are written for it, and the terminator of a single backslash is
taken for a character. -/
theorem strecpy_high : strecpy (fun _ => false) [] [200] = [92, 51, 55, 55] ∧
    (streadd (fun _ => false) [] [200]).extent = 13 ∧ strcadd [92, 51, 55, 55] = some [255] ∧
    strcadd [92] = none := by
  refine ⟨by decide, by decide, ?_, ?_⟩
  · refine (strcadd_octal (c := 51) (d := 55) (e := 55) rfl rfl rfl).trans ?_
    rw [strcadd]
    rfl
  · rw [strcadd, if_neg (fun h => h rfl)]

end Svr42.Strecpy
