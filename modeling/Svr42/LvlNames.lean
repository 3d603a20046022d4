import Svr42.LvlAdjust

/-! Names of classifications and categories: their numbers, and the text of a list of categories. -/

namespace Svr42.Lvl
open Bool List Nat

variable {file : List Str} {name bufp : Str} {lvl lvl' : MacLevel} {sep : UInt8} {c fuel i j max n : Nat} {cats : List Nat}

/-! ### Names -/

/-- The names in use are names, and each has one number. -/
structure Names (file : List Str) : Prop where
  valid : ∀ i name, 0 < i → indexToName file i = some name → isaName name = true
  distinct : ∀ i j name, 0 < i → 0 < j → indexToName file i = some name →
    indexToName file j = some name → i = j

theorem indexToName_iff : indexToName file i = some name ↔ file[i]? = some name ∧ name ≠ [] := by
  rw [indexToName]
  cases hget : file[i]? with
  | none => exact iff_of_false nofun fun h => by cases h.1
  | some found =>
    dsimp only
    split_ifs with hempty
    · refine iff_of_false nofun fun h => ?_
      obtain rfl := Option.some.inj h.1
      exact h.2 hempty
    · constructor
      · intro h
        obtain rfl := Option.some.inj h
        exact ⟨rfl, hempty⟩
      · exact fun h => h.1

theorem indexToName_lt (h : indexToName file i = some name) : i < file.length :=
  (List.getElem?_eq_some_iff.mp (indexToName_iff.mp h).1).1

structure IsName (name : Str) : Prop where
  nonempty : name ≠ []
  length : name.length ≤ LVL_MAXNAMELEN
  plain : ∀ c ∈ name, c ∉ DELIMITERS

theorem isName_of (h : isaName name = true) : IsName name := by
  cases name with
  | nil => cases h
  | cons c rest =>
    rw [isaName] at h
    split_ifs at h with hdigit hlength
    refine ⟨cons_ne_nil c rest, Nat.not_lt.mp hlength, fun d hd hin => ?_⟩
    rw [not_eq_true', any_eq_false] at h
    exact h d hd (contains_iff_mem.mpr hin)

theorem IsName.no_colon (h : IsName name) : colon ∉ name :=
  fun hin => h.plain colon hin (by decide)

theorem IsName.no_comma (h : IsName name) : comma ∉ name :=
  fun hin => h.plain comma hin (by decide)

theorem nameToIndex_some (hne : name ≠ []) (h : nameToIndex file name ≠ 0) :
    indexToName file (nameToIndex file name) = some name := by
  rw [nameToIndex] at h ⊢
  cases hfind : (file.drop 1).findIdx? (· == name) with
  | none =>
    rw [hfind] at h
    exact absurd rfl h
  | some i =>
    dsimp only
    obtain ⟨hi, heq, -⟩ := findIdx?_eq_some_iff_getElem.mp hfind
    rw [indexToName_iff]
    refine ⟨?_, hne⟩
    rw [← eq_of_beq heq, getElem_drop, List.getElem?_eq_some_iff]
    rw [length_drop] at hi
    refine ⟨by omega, ?_⟩
    simp only [Nat.add_comm 1 i]

theorem Names.nameToIndex (h : Names file) (hi : 0 < i) (hname : indexToName file i = some name) :
    nameToIndex file name = i := by
  have hne := (indexToName_iff.mp hname).2
  have hpos : Lvl.nameToIndex file name ≠ 0 := by
    rw [Lvl.nameToIndex]
    cases hfind : (file.drop 1).findIdx? (· == name) with
    | some n => exact succ_ne_zero n
    | none =>
      obtain ⟨hlt, hget⟩ := List.getElem?_eq_some_iff.mp (indexToName_iff.mp hname).1
      have hin : name ∈ file.drop 1 := by
        rw [mem_iff_getElem]
        refine ⟨i - 1, by rw [length_drop]; omega, ?_⟩
        rw [getElem_drop]
        simpa only [show 1 + (i - 1) = i by omega] using hget
      have hnot := List.findIdx?_eq_none_iff.mp hfind name hin
      rw [beq_self_eq_true] at hnot
      cases hnot
  exact h.distinct _ _ _ (Nat.pos_of_ne_zero hpos) hi (nameToIndex_some hne hpos) hname

theorem nameToIndex_lt (hmax : file.length ≤ max + 1) (hlow : max < 65536) :
    ushort (nameToIndex file name) = nameToIndex file name := by
  rw [ushort, mod_eq_of_lt]
  rw [nameToIndex]
  cases hfind : (file.drop 1).findIdx? (· == name) with
  | none => exact zero_lt_succ 65535
  | some i =>
    obtain ⟨hi, -⟩ := findIdx?_eq_some_iff_getElem.mp hfind
    rw [length_drop] at hi
    dsimp only
    omega

/-! ### Text up to a separator -/

theorem name_ends {p : UInt8 → Bool} {rest : Str} (hname : ∀ c ∈ name, p c = true)
    (hrest : ∀ c t, rest = c :: t → p c = false) :
    (name ++ rest).takeWhile p = name ∧ (name ++ rest).dropWhile p = rest := by
  rw [takeWhile_append_of_pos hname, dropWhile_append_of_pos hname]
  cases rest with
  | nil => exact ⟨append_nil name, rfl⟩
  | cons c t =>
    have hc := hrest c t rfl
    rw [takeWhile_cons_of_neg (by rw [hc]; exact false_ne_true),
      dropWhile_cons_of_neg (by rw [hc]; exact false_ne_true)]
    exact ⟨append_nil name, rfl⟩

theorem dropWhile_ne (c : UInt8) (s : Str) :
    s.dropWhile (· != c) = [] ∨ ∃ t, s.dropWhile (· != c) = c :: t := by
  cases hdrop : s.dropWhile (· != c) with
  | nil => exact .inl rfl
  | cons d t =>
    refine .inr ⟨t, ?_⟩
    have hd := head?_dropWhile_not (· != c) s
    rw [hdrop] at hd
    have heq : d = c := by simpa using hd
    rw [heq]

def catsText (file : List Str) : UInt8 → List Nat → Str
  | _, [] => []
  | sep, c :: cats => sep :: ((indexToName file c).getD [] ++ catsText file comma cats)

/-- Only the only category of a text can be taken for `LVL_ALLCATS`. -/
theorem catsText_allcats (h : catsText file colon cats = colon :: LVL_ALLCATS) :
    ∃ c, cats = [c] ∧ indexToName file c = some LVL_ALLCATS := by
  cases cats with
  | nil => cases h
  | cons c cats =>
    rw [catsText] at h
    have hrest := (cons.inj h).2
    cases cats with
    | nil =>
      rw [catsText, append_nil] at hrest
      refine ⟨c, rfl, ?_⟩
      cases hname : indexToName file c with
      | none =>
        rw [hname] at hrest
        cases hrest
      | some name =>
        rw [hname] at hrest
        exact congrArg some hrest
    | cons d cats =>
      have hin : comma ∈ LVL_ALLCATS := by
        rw [← hrest, catsText]
        exact mem_append_right _ (.head _)
      exact absurd hin (by decide)

/-! ### The categories of a text -/

/-- The loop turns on the categories of a text one after another. -/
theorem parseCats_text (h : Names file) (hmax : file.length ≤ MAXCATS + 1)
    (hcats : ∀ c ∈ cats, 0 < c ∧ indexToName file c ≠ none)
    (hfuel : (catsText file sep cats).length < fuel) :
    parseCats file fuel (catsText file sep cats) lvl = turnonEach cats lvl := by
  induction cats generalizing sep fuel lvl with
  | nil =>
    obtain ⟨fuel, rfl⟩ := Nat.exists_eq_succ_of_ne_zero (Nat.ne_zero_of_lt hfuel)
    rfl
  | cons c cats ih =>
    obtain ⟨fuel, rfl⟩ := Nat.exists_eq_succ_of_ne_zero (Nat.ne_zero_of_lt hfuel)
    obtain ⟨hpos, hnamed⟩ := hcats c (.head _)
    obtain ⟨name, hname⟩ := Option.ne_none_iff_exists'.mp hnamed
    have hvalid := h.valid c name hpos hname
    have hisname := isName_of hvalid
    rw [catsText, hname, Option.getD_some, length_cons, length_append] at hfuel
    have hends : (name ++ catsText file comma cats).takeWhile (· != comma) = name ∧
        (name ++ catsText file comma cats).dropWhile (· != comma) = catsText file comma cats := by
      apply name_ends
      · intro d hd
        exact bne_iff_ne.mpr fun heq => hisname.no_comma (heq ▸ hd)
      · intro d t heq
        cases cats with
        | nil => cases heq
        | cons e cats =>
          rw [catsText] at heq
          rw [← (cons.inj heq).1, bne_self_eq_false]
    rw [catsText, hname, Option.getD_some, parseCats]
    rw [hends.1, hends.2, if_neg (Nat.not_lt.mpr hisname.length),
      nameToIndex_lt hmax (by decide), h.nameToIndex hpos hname, if_neg, turnonEach]
    · congr 1
      funext lvl
      exact ih (fun d hd => hcats d (.tail c hd)) (by omega)
    · rintro (hnot | hzero)
      · rw [hvalid] at hnot
        cases hnot
      · exact Nat.ne_of_gt hpos hzero

/-- What the loop accepts is the text of categories. -/
theorem parseCats_some (hmax : file.length ≤ MAXCATS + 1) (hsep : bufp = [] ∨ ∃ t, bufp = sep :: t)
    (h : parseCats file fuel bufp lvl = some lvl') :
    ∃ cats, (∀ c ∈ cats, 0 < c ∧ c ≤ MAXCATS ∧ indexToName file c ≠ none) ∧
      bufp = catsText file sep cats ∧ turnonEach cats lvl = some lvl' := by
  induction fuel generalizing bufp sep lvl with
  | zero => cases h
  | succ fuel ih =>
    rcases hsep with rfl | ⟨rest, rfl⟩
    · exact ⟨[], nofun, rfl, h⟩
    rw [parseCats] at h
    dsimp only at h
    rw [nameToIndex_lt hmax (by decide)] at h
    split_ifs at h with hlength hbad
    obtain ⟨hvalid, hindex⟩ := not_or.mp hbad
    obtain ⟨next, hnext, hmore⟩ := Option.bind_eq_some_iff.mp h
    have hisname := isName_of (not_eq_false _ ▸ hvalid)
    have hname := nameToIndex_some hisname.nonempty hindex
    obtain ⟨cats, hcats, htext, hrun⟩ := ih (dropWhile_ne comma rest) hmore
    refine ⟨nameToIndex file (rest.takeWhile (· != comma)) :: cats, fun d hd => ?_, ?_, ?_⟩
    · rcases mem_cons.mp hd with rfl | hin
      · have := indexToName_lt hname
        exact ⟨Nat.pos_of_ne_zero hindex, by omega, by rw [hname]; exact Option.some_ne_none _⟩
      · exact hcats d hin
    · rw [catsText, hname, Option.getD_some, ← htext, takeWhile_append_dropWhile]
    · rw [turnonEach, hnext, Option.bind_some]
      exact hrun

end Svr42.Lvl
