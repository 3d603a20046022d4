import Svr42.LvlReads
import Mathlib.Data.List.Nodup

/-! A level written by `lvlout` is read back by `lvlin`. -/

namespace Svr42.Lvl
open List Nat

variable {lvl lvl' : MacLevel} {text name : Str} {lid lid' m n c len : Nat} {cats : List Nat} {t : Tables}
  {firstcat : Bool} {file : List Str} {malloc : Nat → Bool} {st st' : Statics}

/-! ### Fully qualified names -/

theorem class_ends {rest : Str} (hname : IsName name) (hrest : rest = [] ∨ ∃ s, rest = colon :: s) :
    (name ++ rest).takeWhile (· != colon) = name ∧ (name ++ rest).dropWhile (· != colon) = rest := by
  apply name_ends
  · intro c hc
    exact bne_iff_ne.mpr fun heq => hname.no_colon (heq ▸ hc)
  · rintro c s rfl
    rcases hrest with hrest | ⟨s', hrest⟩
    · cases hrest
    · rw [(List.cons.inj hrest).1, bne_self_eq_false]

theorem catsText_head (file : List Str) (cats : List Nat) :
    catsText file colon cats = [] ∨ ∃ s, catsText file colon cats = colon :: s := by
  cases cats with
  | nil => exact .inl rfl
  | cons c cats => exact .inr ⟨_, rfl⟩

theorem packed_noCats (classnum : Nat) : Packed (noCats classnum) 0 :=
  ⟨zero_le CAT_SIZE, fun j hj => absurd hj (not_lt_zero j),
    fun _ j _ hj => absurd hj (not_lt_zero j), fun _ _ _ => rfl, fun _ _ _ => rfl⟩

theorem adjusted_all (classnum : Nat) : ∃ m, Packed (adjustLvl (turnonAll MAXCATS 1 (noCats classnum))) m ∧
    (∀ c, 1 ≤ c → c ≤ MAXCATS →
      c ∈ categories (adjustLvl (turnonAll MAXCATS 1 (noCats classnum)))) ∧
    (adjustLvl (turnonAll MAXCATS 1 (noCats classnum))).lvlClass = classnum := by
  obtain ⟨hraised, hclass⟩ := turnonAll_eq (raised_noCats classnum) (Nat.le_refl 1)
    (show 1 + MAXCATS ≤ MAXCATS + 1 by omega) nofun
  obtain ⟨m, hp, hmem, hclass'⟩ := hraised.adjustLvl
  refine ⟨m, hp, fun c hlow hhigh => ?_, hclass'.trans hclass⟩
  rw [hmem, append_nil, mem_reverse, mem_range'_1]
  omega

theorem adjusted_each (classnum : Nat) (hcats : ∀ c ∈ cats, 1 ≤ c ∧ c ≤ MAXCATS) :
    (cats.Nodup → ∃ lvl', turnonEach cats (noCats classnum) = some lvl' ∧
      ∃ m, Packed (adjustLvl lvl') m ∧ cats.Perm (categories (adjustLvl lvl')) ∧
        (adjustLvl lvl').lvlClass = classnum) ∧
    (¬ cats.Nodup → turnonEach cats (noCats classnum) = none) := by
  obtain ⟨hgood, hbad⟩ := (raised_noCats classnum).turnonEach hcats nodup_nil
  rw [append_nil, nodup_reverse] at hgood hbad
  refine ⟨fun hnodup => ?_, hbad⟩
  obtain ⟨lvl', hrun, hraised, hclass⟩ := hgood hnodup
  obtain ⟨m, hp, hmem, hclass'⟩ := hraised.adjustLvl
  refine ⟨lvl', hrun, m, hp, ?_, hclass'.trans hclass⟩
  rw [perm_ext_iff_of_nodup hnodup hp.nodup]
  intro c
  rw [hmem, mem_reverse]

theorem categories_all (hp : Packed lvl m) (hp' : Packed lvl' n)
    (hall : ∀ c, 1 ≤ c → c ≤ MAXCATS → c ∈ categories lvl)
    (hall' : ∀ c, 1 ≤ c → c ≤ MAXCATS → c ∈ categories lvl') : categories lvl = categories lvl' := by
  refine List.Perm.eq_of_pairwise (fun a b _ _ hab hba => by omega) hp.sorted hp'.sorted ?_
  rw [perm_ext_iff_of_nodup hp.nodup hp'.nodup]
  exact fun c => ⟨fun hc => hall' c (hp.range hc).1 (hp.range hc).2,
    fun hc => hall c (hp'.range hc).1 (hp'.range hc).2⟩

theorem categories_perm (hp : Packed lvl m) (hp' : Packed lvl' n) (hperm : cats.Perm (categories lvl))
    (hperm' : cats.Perm (categories lvl')) : categories lvl = categories lvl' :=
  List.Perm.eq_of_pairwise (fun a b _ _ hab hba => by omega) hp.sorted hp'.sorted
    (hperm.symm.trans hperm')

theorem levelToLid_eq (h : t.Sound) {rest : Str} {classnum : Nat} (hpos : 0 < classnum)
    (hclass : indexToName t.classes classnum = some name) (hrest : rest = [] ∨ ∃ s, rest = colon :: s) :
    levelToLid t.db (name ++ rest) = if rest = [] then lvlStructToLid t.db (noCats classnum)
      else if rest.drop 1 = LVL_ALLCATS then
        lvlStructToLid t.db (adjustLvl (turnonAll MAXCATS 1 (noCats classnum)))
      else (parseCats t.cats (rest.length + 1) rest (noCats classnum)).elim (.error EINVAL)
        fun lvl => lvlStructToLid t.db (adjustLvl lvl) := by
  have hvalid := h.classNames.valid _ _ hpos hclass
  have hisname := isName_of hvalid
  obtain ⟨htake, hdrop⟩ := class_ends hisname hrest
  rw [levelToLid, Tables.db]
  dsimp only
  rw [htake, hdrop, if_neg (Nat.not_lt.mpr hisname.length), hvalid,
    if_neg (fun hfalse => by cases hfalse), nameToIndex_lt h.maxclasses (by decide),
    h.classNames.nameToIndex hpos hclass, if_neg (Nat.ne_of_gt hpos)]
  split_ifs
  · rfl
  · rfl
  · cases parseCats t.cats (rest.length + 1) rest (noCats classnum) with
    | none => rfl
    | some lvl => rfl

theorem levelToLid_class (h : t.Sound) (hok : levelToLid t.db text = .ok lid) :
    ∃ classnum name rest, 0 < classnum ∧ indexToName t.classes classnum = some name ∧
      (rest = [] ∨ ∃ s, rest = colon :: s) ∧ text = name ++ rest := by
  rw [levelToLid, Tables.db] at hok
  dsimp only at hok
  rw [nameToIndex_lt h.maxclasses (by decide)] at hok
  split_ifs at hok with hlength hvalid hindex
  all_goals
    have hisname := isName_of (Bool.not_eq_false _ ▸ hvalid)
    exact ⟨_, _, _, Nat.pos_of_ne_zero hindex, nameToIndex_some hisname.nonempty hindex,
      dropWhile_ne colon text, (takeWhile_append_dropWhile).symm⟩

theorem levelToLid_iff (h : t.Sound) : levelToLid t.db text = .ok lid ↔
    ∃ lvl, t.Active lid lvl ∧ Spells t lvl text := by
  constructor
  · intro hok
    obtain ⟨classnum, name, rest, hpos, hclass, hrest, rfl⟩ := levelToLid_class h hok
    rw [levelToLid_eq h hpos hclass hrest] at hok
    split_ifs at hok with hempty hall
    · -- no categories
      obtain ⟨lvl, hactive, hclass', hcats⟩ := lvlStructToLid_ok h (packed_noCats classnum) hok
      refine ⟨lvl, hactive, name, by rw [hclass']; exact hclass, .inr ⟨[], ?_, ?_, ?_, ?_⟩⟩
      · rw [hcats]
        exact List.Perm.refl []
      · exact nofun
      · exact fun hnil => by cases hnil
      · rw [hempty]
        rfl
    · obtain ⟨m, hp, hmem, hclass'⟩ := adjusted_all classnum
      obtain ⟨lvl, hactive, hclass'', hcats⟩ := lvlStructToLid_ok h hp hok
      refine ⟨lvl, hactive, name, by rw [hclass'', hclass']; exact hclass, .inl ⟨?_, ?_⟩⟩
      · rcases hrest with hrest | ⟨s, rfl⟩
        · exact absurd hrest hempty
        · rw [← hall]
          rfl
      · rw [hcats]
        exact hmem
    · cases hparse : parseCats t.cats (rest.length + 1) rest (noCats classnum) with
      | none =>
        rw [hparse] at hok
        cases hok
      | some lvl₀ =>
        rw [hparse] at hok
        obtain ⟨cats, hcats, htext, hrun⟩ := parseCats_some h.maxcats hrest hparse
        obtain ⟨hgood, hbad⟩ := adjusted_each classnum fun c hc =>
          (⟨(hcats c hc).1, (hcats c hc).2.1⟩ : 1 ≤ c ∧ c ≤ MAXCATS)
        have hnodup : cats.Nodup := by
          by_contra hnot
          rw [hbad hnot] at hrun
          cases hrun
        obtain ⟨lvl₁, hrun₁, m, hp, hperm, hclass'⟩ := hgood hnodup
        obtain rfl := Option.some.inj (hrun.symm.trans hrun₁)
        obtain ⟨lvl, hactive, hclass'', hsame⟩ := lvlStructToLid_ok h hp hok
        refine ⟨lvl, hactive, name, by rw [hclass'', hclass']; exact hclass, .inr ⟨cats, ?_, ?_, ?_, ?_⟩⟩
        · rw [hsame]
          exact hperm
        · exact fun c hc => (hcats c hc).2.2
        · intro heq
          rw [htext, heq] at hall
          exact hall rfl
        · rw [htext]
  · rintro ⟨lvl, hactive, name, hclass, hspells⟩
    obtain ⟨hpos, m, hp⟩ := h.levels _ _ hactive
    rcases hspells with ⟨rfl, hall⟩ | ⟨cats, hperm, hnamed, hnot, rfl⟩
    · rw [levelToLid_eq h hpos hclass (.inr ⟨_, rfl⟩), if_neg (cons_ne_nil _ _),
        if_pos (show (colon :: LVL_ALLCATS).drop 1 = LVL_ALLCATS from rfl)]
      obtain ⟨n, hp', hall', hclass'⟩ := adjusted_all lvl.lvlClass
      rw [lvlStructToLid_iff h hp']
      · exact ⟨lvl, hactive, hclass'.symm, categories_all hp hp' hall hall'⟩
      · intro lvl' hsame hcats
        refine ⟨_, name, by rw [hsame, hclass']; exact hclass, .inl ⟨rfl, ?_⟩⟩
        rw [hcats]
        exact hall'
    rw [levelToLid_eq h hpos hclass (catsText_head t.cats cats)]
    have hrange : ∀ c ∈ cats, 1 ≤ c ∧ c ≤ MAXCATS := fun c hc => hp.range (hperm.mem_iff.mp hc)
    by_cases hempty : cats = []
    · rw [hempty, catsText, if_pos rfl, lvlStructToLid_iff h (packed_noCats lvl.lvlClass)]
      · refine ⟨lvl, hactive, rfl, ?_⟩
        rw [hempty] at hperm
        exact nil_perm.mp hperm
      · intro lvl' hsame hcats
        refine ⟨_, name, by rw [hsame]; exact hclass, .inr ⟨[], ?_, ?_, ?_, rfl⟩⟩
        · rw [hcats]
          exact List.Perm.refl []
        · exact nofun
        · exact fun hnil => by cases hnil
    · have hcons : ∃ s, catsText t.cats colon cats = colon :: s := by
        cases cats with
        | nil => exact absurd rfl hempty
        | cons c cats => exact ⟨_, rfl⟩
      obtain ⟨s, hs⟩ := hcons
      have hnotall : ¬ (catsText t.cats colon cats).drop 1 = LVL_ALLCATS := by
        rw [hs] at hnot ⊢
        exact fun heq => hnot (congrArg (List.cons colon) heq)
      rw [if_neg (by rw [hs]; exact cons_ne_nil _ _), if_neg hnotall,
        parseCats_text h.catNames h.maxcats (fun c hc => ⟨(hrange c hc).1, hnamed c hc⟩)
          (lt_succ_self _)]
      obtain ⟨lvl₀, hrun, n, hp', hperm', hclass'⟩ :=
        (adjusted_each lvl.lvlClass hrange).1 (hperm.nodup_iff.mpr hp.nodup)
      rw [hrun, Option.elim_some, lvlStructToLid_iff h hp']
      · exact ⟨lvl, hactive, hclass'.symm, categories_perm hp hp' hperm hperm'⟩
      · intro lvl' hsame hcats
        refine ⟨_, name, by rw [hsame, hclass']; exact hclass, .inr ⟨cats, ?_, hnamed, hnot, rfl⟩⟩
        rw [hcats]
        exact hperm'

/-! ### Aliases -/

/-- An alias of an active level is found; otherwise the error is EINVAL. -/
theorem aliasToLid_cases (h : t.Sound) (text : Str) :
    (∃ lid lvl, t.Active lid lvl ∧ indexToName t.aliases lid = some text ∧
      aliasToLid t.db text = .ok lid) ∨
    (∀ lid lvl, t.Active lid lvl → indexToName t.aliases lid ≠ some text) ∧
      aliasToLid t.db text = .error EINVAL := by
  have hindex : ∀ lid lvl, t.Active lid lvl → indexToName t.aliases lid = some text →
      isaName text = true ∧ nameToIndex t.aliases text = lid := by
    intro lid lvl hactive hname
    have hpos := (active_iff.mp hactive).1
    exact ⟨h.aliasNames.valid _ _ hpos hname, h.aliasNames.nameToIndex hpos hname⟩
  by_cases hvalid : isaName text = false
  · refine .inr ⟨fun lid lvl hactive hname => ?_, ?_⟩
    · rw [(hindex lid lvl hactive hname).1] at hvalid
      cases hvalid
    · rw [aliasToLid, if_pos hvalid]
  rw [aliasToLid, if_neg hvalid, Tables.db]
  dsimp only
  by_cases hzero : nameToIndex t.aliases text = 0
  · refine .inr ⟨fun lid lvl hactive hname => ?_, ?_⟩
    · have hpos := (active_iff.mp hactive).1
      rw [(hindex lid lvl hactive hname).2] at hzero
      omega
    · rw [if_pos hzero]
  have hname := nameToIndex_some (isName_of (Bool.not_eq_false _ ▸ hvalid)).nonempty hzero
  rw [if_neg hzero]
  have hinactive : ∀ {lid lvl}, t.Active lid lvl → indexToName t.aliases lid = some text →
      t.Active (nameToIndex t.aliases text) lvl := by
    intro lid lvl hactive hname'
    rw [(hindex lid lvl hactive hname').2]
    exact hactive
  cases hlid : lvlLidToStruct t.db (nameToIndex t.aliases text) with
  | error err =>
    refine .inr ⟨fun lid lvl hactive hname' => ?_, ?_⟩
    · have hok := (hinactive hactive hname').1
      rw [hlid] at hok
      cases hok
    · rw [lvlLidToStruct, if_neg hzero, Tables.db] at hlid
      dsimp only at hlid
      cases hget : t.lids[nameToIndex t.aliases text]? with
      | none =>
        rw [hget] at hlid
        obtain rfl := Except.error.inj hlid
        rw [lvlLidToStruct, if_neg hzero]
        dsimp only
        rw [hget]
      | some found =>
        rw [hget] at hlid
        dsimp only at hlid
        split_ifs at hlid with hinvalid
        rw [lvlLidToStruct, if_neg hzero]
        dsimp only
        rw [hget]
        dsimp only
        rw [if_pos hinvalid]
  | ok lvl =>
    rw [Tables.db] at hlid
    rw [hlid]
    dsimp only
    by_cases hactive : lvl.lvlValid = .active
    · rw [if_neg (not_not.mpr hactive)]
      exact .inl ⟨_, lvl, ⟨hlid, hactive⟩, hname, rfl⟩
    rw [if_pos hactive]
    refine .inr ⟨fun lid lvl' hactive' hname' => ?_, rfl⟩
    have hfound := hinactive hactive' hname'
    rw [Tables.Active, Tables.db, hlid] at hfound
    obtain rfl := Except.ok.inj hfound.1
    exact hactive hfound.2

end Svr42.Lvl
